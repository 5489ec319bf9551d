import Scambio.Lib.Journal

/-!
# JournalLayout — what the two files of a journal hold

The content of a journal is a list of slots, one per patch: the bytes of its record and its mark.
`logBytes` and `idxBytes` lay such a list out as the log and the index; the lemmas here say what each
function of `Journal` does on files laid out that way.
-/

namespace Scambio

open Library

/-- One patch of a journal: its record in the log and the `last_mark` of its index entry. -/
structure Slot where
  record : Bytes
  mark : Int
  deriving DecidableEq, Repr

def records (p : List Slot) : List Bytes :=
  p.map Slot.record

theorem records_concat (p q : List Slot) : records (p ++ q) = records p ++ records q := by
  simp [records]

def logBytes (p : List Slot) : Bytes :=
  (records p).flatten

def indexEntries (p : List Slot) : List IndexEntry :=
  p.mapIdx fun i s => { offset := offset (records p) i, lastMark := s.mark }

def idxBytes (p : List Slot) : Bytes :=
  ((indexEntries p).map indexEntryBytes).flatten

/-- What the C types can hold: no empty record, offsets and marks that are `int64_t`. -/
structure Fits (p : List Slot) : Prop where
  nonempty : ∀ s ∈ p, s.record ≠ []
  marks : ∀ s ∈ p, -2 ^ 63 ≤ s.mark ∧ s.mark < 2 ^ 63
  bytes : (logBytes p).length + 1 < 2 ^ 63

/-! ## Words and entries -/

theorem toInt64_wordBytes {v : Int} (hlo : -2 ^ 63 ≤ v) (hhi : v < 2 ^ 63) :
    toInt64 (leNat (wordBytes v)) = v := by
  have hnn : 0 ≤ v % 2 ^ 64 := Int.emod_nonneg _ (by norm_num)
  have hlt : (v % 2 ^ 64).toNat < 256 ^ 8 := by omega
  have hmod : Int.bmod (v % 2 ^ 64) (2 ^ 64) = v := by
    have h := Int.emod_bmod v (2 ^ 64)
    rw [Int.bmod_eq_of_le (n := v) (by omega) (by omega)] at h
    simpa using h
  unfold toInt64 wordBytes
  simp only [leNat_leBytes_of_lt hlt, Int.toNat_of_nonneg hnn, hmod]

@[simp] theorem length_wordBytes (v : Int) : (wordBytes v).length = 8 := by
  simp [wordBytes]

@[simp] theorem length_indexEntryBytes (ie : IndexEntry) : (indexEntryBytes ie).length = 16 := by
  simp [indexEntryBytes]

theorem bytesIndexEntry_bytes {ie : IndexEntry} (ho : -2 ^ 63 ≤ ie.offset ∧ ie.offset < 2 ^ 63)
    (hm : -2 ^ 63 ≤ ie.lastMark ∧ ie.lastMark < 2 ^ 63) :
    bytesIndexEntry (indexEntryBytes ie) = ie := by
  have hoff : (indexEntryBytes ie).take 8 = wordBytes ie.offset := by
    simp [indexEntryBytes]
  have hmark : ((indexEntryBytes ie).drop 8).take 8 = wordBytes ie.lastMark := by
    simp [indexEntryBytes, List.take_of_length_le]
  simp only [bytesIndexEntry, hoff, hmark, toInt64_wordBytes ho.1 ho.2, toInt64_wordBytes hm.1 hm.2]

/-! ## Shape of the index -/

@[simp] theorem length_indexEntries (p : List Slot) : (indexEntries p).length = p.length := by
  simp [indexEntries]

theorem getElem?_indexEntries (p : List Slot) (i : Nat) :
    (indexEntries p)[i]? =
      p[i]?.map fun s => { offset := offset (records p) i, lastMark := s.mark } := by
  simp [indexEntries]

theorem offset_indexEntries (p : List Slot) {i : Nat} (h : i ≤ p.length) :
    offset ((indexEntries p).map indexEntryBytes) i = 16 * i := by
  refine offset_const _ ?_ (by simpa using h)
  intro s hs
  rcases List.mem_map.1 hs with ⟨ie, -, rfl⟩
  exact length_indexEntryBytes ie

@[simp] theorem length_idxBytes (p : List Slot) : (idxBytes p).length = 16 * p.length := by
  have h := offset_indexEntries p (Nat.le_refl _)
  have hl : ((indexEntries p).map indexEntryBytes).length = p.length := by simp
  rw [idxBytes, ← offset_length, hl]
  exact h

theorem indexEntries_append (p : List Slot) (s : Slot) :
    indexEntries (p ++ [s]) =
      indexEntries p ++ [{ offset := (logBytes p).length, lastMark := s.mark }] := by
  have hlen : (records p).length = p.length := by simp [records]
  have hrec : records (p ++ [s]) = records p ++ [s.record] := by simp [records]
  refine List.ext_getElem? ?_
  intro i
  rw [getElem?_indexEntries, hrec]
  rcases Nat.lt_trichotomy i p.length with hi | rfl | hi
  · rw [List.getElem?_append_left hi, List.getElem?_append_left (by simpa using hi),
      getElem?_indexEntries, offset_append _ _ (by omega)]
  · have hoff : offset (records p ++ [s.record]) p.length = (logBytes p).length := by
      rw [offset_append _ _ (by omega), ← hlen, offset_length, logBytes]
    simp [hoff]
  · have h1 : (p ++ [s])[i]? = none :=
      List.getElem?_eq_none (by rw [List.length_append, List.length_singleton]; omega)
    rw [h1, List.getElem?_eq_none]
    · rfl
    · rw [List.length_append, List.length_singleton, length_indexEntries]
      omega

theorem idxBytes_append (p : List Slot) (s : Slot) :
    idxBytes (p ++ [s]) = idxBytes p ++
      indexEntryBytes { offset := (logBytes p).length, lastMark := s.mark } := by
  simp [idxBytes, indexEntries_append]

theorem logBytes_append (p : List Slot) (s : Slot) :
    logBytes (p ++ [s]) = logBytes p ++ s.record := by
  simp [logBytes, records]

@[simp] theorem logBytes_nil : logBytes [] = [] := rfl

@[simp] theorem idxBytes_nil : idxBytes [] = [] := rfl

/-- Changing a record in place, its length kept, leaves the index as it is. -/
theorem indexEntries_set_record (p : List Slot) {i : Nat} (h : i < p.length) {r : Bytes}
    (hr : r.length = p[i].record.length) :
    indexEntries (p.set i { p[i] with record := r }) = indexEntries p := by
  have hrec : records (p.set i { p[i] with record := r }) = (records p).set i r := by
    simp [records, List.map_set]
  refine List.ext_getElem? ?_
  intro k
  rw [getElem?_indexEntries, getElem?_indexEntries, hrec,
    offset_set (records p) (by simpa [records] using h) (by simpa [records] using hr)]
  by_cases hk : i = k
  · subst hk
    simp [h]
  · rw [List.getElem?_set_ne hk]

theorem records_set_mark (p : List Slot) {i : Nat} (h : i < p.length) (mark : Int) :
    records (p.set i { p[i] with mark := mark }) = records p := by
  have hi : i < (p.map Slot.record).length := by simpa using h
  have hself : (p.map Slot.record).set i (p.map Slot.record)[i] = p.map Slot.record :=
    List.set_getElem_self hi
  simpa [records, List.map_set] using hself

theorem indexEntries_set_mark (p : List Slot) {i : Nat} (h : i < p.length) (mark : Int) :
    indexEntries (p.set i { p[i] with mark := mark }) =
      (indexEntries p).set i { offset := offset (records p) i, lastMark := mark } := by
  refine List.ext_getElem? ?_
  intro k
  rw [getElem?_indexEntries, records_set_mark p h]
  by_cases hk : i = k
  · subst hk
    simp [h]
  · rw [List.getElem?_set_ne hk, List.getElem?_set_ne hk, getElem?_indexEntries]

theorem logBytes_set_mark (p : List Slot) {i : Nat} (h : i < p.length) (mark : Int) :
    logBytes (p.set i { p[i] with mark := mark }) = logBytes p := by
  rw [logBytes, records_set_mark p h, logBytes]

theorem idxBytes_set_mark (p : List Slot) {i : Nat} (h : i < p.length) (mark : Int) :
    idxBytes (p.set i { p[i] with mark := mark }) =
      overwrite 0 (idxBytes p) (i * 16)
        (indexEntryBytes { offset := offset (records p) i, lastMark := mark }) := by
  have hi : i < ((indexEntries p).map indexEntryBytes).length := by simpa using h
  have hoff := offset_indexEntries p (Nat.le_of_lt h)
  rw [idxBytes, idxBytes, indexEntries_set_mark p h, List.map_set, Nat.mul_comm, ← hoff,
    overwrite_flatten 0 _ hi (by simp)]
  simp [List.drop_of_length_le]

/-- Rewriting the first bytes of a record in place. -/
theorem logBytes_set_record (p : List Slot) {i : Nat} (h : i < p.length) {w : Bytes}
    (hw : w.length ≤ p[i].record.length) :
    logBytes (p.set i { p[i] with record := w ++ p[i].record.drop w.length }) =
      overwrite 0 (logBytes p) (offset (records p) i) w := by
  have hi : i < (records p).length := by simpa [records] using h
  rw [logBytes, logBytes, overwrite_flatten 0 (records p) hi (by simpa [records] using hw)]
  simp [records, List.map_set]

theorem idxBytes_set_record (p : List Slot) {i : Nat} (h : i < p.length) {r : Bytes}
    (hr : r.length = p[i].record.length) :
    idxBytes (p.set i { p[i] with record := r }) = idxBytes p := by
  rw [idxBytes, idxBytes, indexEntries_set_record p h hr]

/-! ## Reading a journal -/

/-- The files of the journal `j` hold the slots `p`. -/
structure JnlHolds (d : Disk) (j : Jnl) (p : List Slot) : Prop where
  log : d.log j.stem = some (logBytes p)
  idx : d.idx j.stem = some (idxBytes p)
  nb : j.nbPatches = p.length

/-- What `jnl_read` makes of a record before parsing, error texts aside. -/
def readText (r : Bytes) : Option (Action × Option Bytes) :=
  if r.length < 3 then none else (readTag 0 r).toOption

/-- What `jnl_read` makes of a record, error texts aside. -/
def readRecord [Host] (r : Bytes) : Option (Action × Option Header) :=
  match readText r with
  | none => none
  | some (action, none) => some (action, none)
  | some (action, some text) => (headerParse (cstr text)).toOption.map fun (h, _) => (action, some h)

theorem readTag_toOption (offset : Int) (buf : Bytes) :
    (readTag offset buf).toOption = (readTag 0 buf).toOption := by
  unfold readTag
  split
  · split_ifs <;> rfl
  · rfl

section Holds

variable {d : Disk} {j : Jnl} {p : List Slot}

theorem JnlHolds.logOf (h : JnlHolds d j p) : d.logOf j.stem = logBytes p := by
  simp [Disk.logOf, h.log]

theorem JnlHolds.idxOf (h : JnlHolds d j p) : d.idxOf j.stem = idxBytes p := by
  simp [Disk.idxOf, h.idx]

theorem offset_lt_bytes (hf : Fits p) (i : Nat) : (offset (records p) i : Int) < 2 ^ 63 := by
  have hle : offset (records p) i ≤ (logBytes p).length := offset_le _ _
  have hb := hf.bytes
  omega

theorem bytesIndexEntries_flatten {es : List IndexEntry}
    (hes : ∀ ie ∈ es, bytesIndexEntry (indexEntryBytes ie) = ie) :
    bytesIndexEntries es.length (es.map indexEntryBytes).flatten = es := by
  induction es with
  | nil => rfl
  | cons ie es ih =>
      have htake : (indexEntryBytes ie ++ (es.map indexEntryBytes).flatten).take 16 =
          indexEntryBytes ie := by
        simp
      have hdrop : (indexEntryBytes ie ++ (es.map indexEntryBytes).flatten).drop 16 =
          (es.map indexEntryBytes).flatten := by
        simp
      simp only [List.length_cons, List.map_cons, List.flatten_cons, bytesIndexEntries, htake, hdrop]
      rw [hes ie (by simp), ih fun e he => hes e (by simp [he])]

theorem decode_indexEntries (hf : Fits p) {ie : IndexEntry} (hie : ie ∈ indexEntries p) :
    bytesIndexEntry (indexEntryBytes ie) = ie := by
  rcases List.mem_iff_getElem?.1 hie with ⟨i, hi⟩
  rw [getElem?_indexEntries] at hi
  rcases Option.map_eq_some_iff.1 hi with ⟨s, hs, rfl⟩
  have hoff := offset_lt_bytes hf i
  exact bytesIndexEntry_bytes ⟨by simp only; omega, hoff⟩ (hf.marks s (List.mem_of_getElem? hs))

theorem jnlIdxRead_spec (h : JnlHolds d j p) (hf : Fits p) {i n : Nat} (hn : 0 < n)
    (hi : i + n ≤ p.length) :
    jnlIdxRead d j i n = .ok (((indexEntries p).drop i).take n) := by
  have hread : readFrom (idxBytes p) ((i * 16 : Nat) : Int) (n * 16) =
      .ok (((indexEntries p).drop i).take n |>.map indexEntryBytes).flatten := by
    have hw : ∀ s ∈ (indexEntries p).map indexEntryBytes, s.length = 16 := by
      intro s hs
      rcases List.mem_map.1 hs with ⟨ie, -, rfl⟩
      exact length_indexEntryBytes ie
    have hs := slice_flatten_const _ hw i n
    rw [Nat.mul_comm 16 i, Nat.mul_comm 16 n, ← List.map_drop, ← List.map_take] at hs
    have hbound : i * 16 + n * 16 ≤ (idxBytes p).length := by
      rw [length_idxBytes]
      omega
    have hn0 : n * 16 ≠ 0 := by omega
    simp only [readFrom, if_neg hn0, Int.toNat_natCast, if_pos hbound]
    rw [if_neg (by omega), ← hs, idxBytes]
  have hlen : (((indexEntries p).drop i).take n).length = n := by
    simp
    omega
  have hent : ∀ ie ∈ ((indexEntries p).drop i).take n, bytesIndexEntry (indexEntryBytes ie) = ie :=
    fun ie hie => decode_indexEntries hf (List.mem_of_mem_drop (List.mem_of_mem_take hie))
  have hdec := bytesIndexEntries_flatten hent
  rw [hlen] at hdec
  rw [jnlIdxRead, h.idxOf, hread]
  simp only [hdec]

theorem records_length (p : List Slot) : (records p).length = p.length := by
  simp [records]

theorem offset_records_succ {i : Nat} (hi : i < p.length) :
    offset (records p) (i + 1) = offset (records p) i + p[i].record.length := by
  have hr : i < (records p).length := by simpa [records] using hi
  rw [offset_succ _ hr]
  simp [records]

theorem getD_indexEntries {i n k : Nat} (hk : k < n) (hi : i + k < p.length) (ie : IndexEntry) :
    (((indexEntries p).drop i).take n).getD k ie =
      { offset := offset (records p) (i + k), lastMark := p[i + k].mark } := by
  rw [List.getD_eq_getElem?_getD, List.getElem?_take_of_lt hk, List.getElem?_drop,
    getElem?_indexEntries, List.getElem?_eq_getElem hi]
  rfl

/-- The offset found in the index, and the size up to the next record or the end of the log. -/
theorem jnlOffsetSize_spec (h : JnlHolds d j p) (hf : Fits p) (hlt : p.length < 2 ^ 32) {i : Nat}
    (hi : i < p.length) :
    jnlOffsetSize d j i = .ok ((offset (records p) i : Int), p[i].record.length) := by
  have hsucc := offset_records_succ hi
  have hpos : 0 < p[i].record.length :=
    List.length_pos_iff.2 (hf.nonempty _ (List.getElem_mem hi))
  have hsize : ((offset (records p) (i + 1) : Int) - (offset (records p) i : Int)).toNat =
      p[i].record.length := by omega
  have hstep : (offset (records p) i : Int) < (offset (records p) (i + 1) : Int) := by omega
  have hlast : unsignedPred j.nbPatches = p.length - 1 := by
    rw [h.nb, unsignedPred_of_pos (by omega) hlt]
  unfold jnlOffsetSize
  rw [hlast]
  by_cases hnext : i < p.length - 1
  · have hn : i + 1 < p.length := by omega
    have hread := jnlIdxRead_spec h hf (i := i) (n := 2) (by decide) (by omega)
    have h0 := getD_indexEntries (n := 2) (by decide : 0 < 2) hi ⟨0, 0⟩
    have h1 := getD_indexEntries (n := 2) (by decide : 1 < 2) hn ⟨0, 0⟩
    simp only [if_pos hnext, hread, h0, h1, Nat.add_zero, if_pos hstep, hsize]
  · have heq : i + 1 = (records p).length := by
      rw [records_length]
      omega
    have hread := jnlIdxRead_spec h hf (i := i) (n := 1) (by decide) (by omega)
    have h0 := getD_indexEntries (n := 1) (by decide : 0 < 1) hi ⟨0, 0⟩
    have hend : (logBytes p).length = offset (records p) (i + 1) := by
      rw [heq, offset_length, logBytes]
    simp only [if_neg hnext, hread, h0, Nat.add_zero, h.logOf, hend, if_pos hstep, hsize]

theorem readFrom_record {i : Nat} (hi : i < p.length) {n : Nat} (hn : 0 < n)
    (hle : n ≤ p[i].record.length) :
    readFrom (logBytes p) (offset (records p) i : Int) n = .ok (p[i].record.take n) := by
  have hr : i < (records p).length := by simpa [records] using hi
  have hsucc := offset_records_succ hi
  have hbound : offset (records p) (i + 1) ≤ (logBytes p).length := offset_le _ _
  have hslice : slice (logBytes p) (offset (records p) i) p[i].record.length = p[i].record := by
    have := slice_flatten (records p) hr
    simpa [records, logBytes] using this
  have htake : slice (logBytes p) (offset (records p) i) n = p[i].record.take n := by
    rw [← hslice]
    simp [slice, List.take_take, Nat.min_eq_left hle]
  simp only [readFrom, if_neg (Nat.ne_of_gt hn), Int.toNat_natCast]
  rw [if_neg (by omega), if_pos (by omega), htake]

theorem jnlReadText_spec (h : JnlHolds d j p) (hf : Fits p) (hlt : p.length < 2 ^ 32) {i : Nat}
    (hi : i < p.length) : (jnlReadText d j i).toOption = readText p[i].record := by
  have hpos : 0 < p[i].record.length :=
    List.length_pos_iff.2 (hf.nonempty _ (List.getElem_mem hi))
  have hread := readFrom_record hi hpos (Nat.le_refl _)
  rw [List.take_length] at hread
  unfold jnlReadText readText
  simp only [jnlOffsetSize_spec h hf hlt hi]
  by_cases hsize : p[i].record.length < 3
  · simp only [if_pos hsize]
    rfl
  · simp only [if_neg hsize, h.logOf, hread]
    exact readTag_toOption _ _

theorem jnlRead_spec [Host] (h : JnlHolds d j p) (hf : Fits p) (hlt : p.length < 2 ^ 32) {i : Nat}
    (hi : i < p.length) : (jnlRead d j i).toOption = readRecord p[i].record := by
  have htext := jnlReadText_spec h hf hlt hi
  unfold jnlRead readRecord
  rw [← htext]
  cases jnlReadText d j i with
  | error e => rfl
  | ok r =>
      rcases r with ⟨action, _ | text⟩
      · rfl
      · cases hp : headerParse (cstr text) with
        | error e => simp [Except.toOption, hp]
        | ok r => simp [Except.toOption, hp]

/-! ## Writing a journal -/

/-- What `jnl_mark_del` makes of a record. -/
def tagDeleted (r : Bytes) : Bytes :=
  ascii "%" ++ r.drop 1

/-- The disk with the files of one journal replaced. -/
def Disk.put (d : Disk) (stem : Bytes) (p : List Slot) : Disk :=
  { d with
    log := Function.update d.log stem (some (logBytes p))
    idx := Function.update d.idx stem (some (idxBytes p)) }

theorem Disk.put_of_idx {f : Bytes} (hidx : d.idx j.stem = some (idxBytes p))
    (hlog : logBytes p = f) : d.setLog j.stem f = d.put j.stem p := by
  rw [Disk.setLog, Disk.put, ← hlog, ← hidx, Function.update_eq_self]

theorem Disk.put_of_log {f : Bytes} (hlog : d.log j.stem = some (logBytes p))
    (hidx : idxBytes p = f) : d.setIdx j.stem f = d.put j.stem p := by
  rw [Disk.setIdx, Disk.put, ← hidx, ← hlog, Function.update_eq_self]

/-- The append of a whole record. -/
theorem jnlAppend_spec (h : JnlHolds d j p) {r : Bytes} (hcan : d.Can (16 + r.length))
    (hlt : p.length + 1 < 2 ^ 32) :
    jnlAppend d j r = ((d.put j.stem (p ++ [⟨r, 0⟩])).pay (16 + r.length),
      { j with nbPatches := p.length + 1 }, j.version + p.length) := by
  have hnb : unsignedSucc j.nbPatches = p.length + 1 := by
    rw [h.nb, unsignedSucc_of_lt hlt]
  have hidx : d.writeIdx j.stem (indexEntryBytes { offset := (logBytes p).length, lastMark := 0 }) =
      (d.setIdx j.stem (idxBytes (p ++ [⟨r, 0⟩]))).pay 16 := by
    rw [Disk.writeIdx_of_can (hcan.mono (by simp)) h.idx, idxBytes_append, length_indexEntryBytes]
  have hlog : ((d.setIdx j.stem (idxBytes (p ++ [⟨r, 0⟩]))).pay 16).writeLog j.stem r =
      (d.put j.stem (p ++ [⟨r, 0⟩])).pay (16 + r.length) := by
    have hcan' : ((d.setIdx j.stem (idxBytes (p ++ [⟨r, 0⟩]))).pay 16).Can r.length :=
      Disk.Can.pay hcan
    rw [Disk.writeLog_of_can hcan' h.log, ← logBytes_append p ⟨r, 0⟩, ← Disk.pay_pay]
    rfl
  simp only [jnlAppend, hnb, h.logOf, hidx, hlog]
  have hver : j.version + ((p.length + 1 : Nat) : Int) - 1 = j.version + p.length := by
    push_cast
    omega
  rw [hver]

/-- A deletion leaves a record already tagged, refuses one that is no addition, else tags it. -/
theorem jnlMarkDel_eq (h : JnlHolds d j p) (hf : Fits p) (hlt : p.length < 2 ^ 32) {i : Nat}
    (hi : i < p.length) {toDel : Int} (hv : toDel = j.version + i) :
    jnlMarkDel d j toDel =
      if p[i].record.take 1 = ascii "%" then (d, .ok ())
      else if p[i].record.take 1 ≠ ascii "+" then
        (d, .error (.push 0 (ascii "Cannot delete version " ++ printInt toDel ++
          ascii " : tag is '" ++ p[i].record.take 1 ++ ascii "'")))
      else (d.writeLogAt j.stem (offset (records p) i) (ascii "%"), .ok ()) := by
  have hpos : 0 < p[i].record.length :=
    List.length_pos_iff.2 (hf.nonempty _ (List.getElem_mem hi))
  have hin : j.version ≤ toDel ∧ toDel - j.version < j.nbPatches := by
    rw [h.nb]
    omega
  have hidx : (toDel - j.version).toNat = i := by omega
  have htag := readFrom_record hi (by decide : 0 < 1) hpos
  simp only [jnlMarkDel, hin, hidx, jnlOffsetSize_spec h hf hlt hi, h.logOf, htag, Int.toNat_natCast]
  simp

theorem jnlMarkDel_added (h : JnlHolds d j p) (hf : Fits p) (hlt : p.length < 2 ^ 32)
    (hcan : d.Can 1) {i : Nat} (hi : i < p.length) {toDel : Int} (hv : toDel = j.version + i)
    (ht : p[i].record.take 1 = ascii "+") :
    jnlMarkDel d j toDel =
      ((d.put j.stem (p.set i { p[i] with record := tagDeleted p[i].record })).pay 1, .ok ()) := by
  have hpos : 0 < p[i].record.length :=
    List.length_pos_iff.2 (hf.nonempty _ (List.getElem_mem hi))
  have hlen : (tagDeleted p[i].record).length = p[i].record.length := by
    simp [tagDeleted, ascii]
    omega
  have hdel : logBytes (p.set i { p[i] with record := tagDeleted p[i].record }) =
      overwrite 0 (logBytes p) (offset (records p) i) (ascii "%") :=
    logBytes_set_record p hi hpos
  have hidx : d.idx j.stem =
      some (idxBytes (p.set i { p[i] with record := tagDeleted p[i].record })) := by
    rw [h.idx, idxBytes_set_record p hi hlen]
  have hneq : ascii "+" ≠ ascii "%" := by decide
  rw [jnlMarkDel_eq h hf hlt hi hv, ht, if_neg hneq, if_neg (not_not.2 rfl),
    Disk.writeLogAt_of_can hcan h.log, Disk.put_of_idx hidx hdel]
  rfl

/-- The new mark of a patch and the previous one. -/
theorem jnlReplaceLastMark_spec [Host] (hat : Host.appendPwrite = .atOffset) (h : JnlHolds d j p)
    (hf : Fits p) (hcan : d.Can 16) {i : Nat} (hi : i < p.length) (mark : Int) :
    jnlReplaceLastMark d j i mark =
      ((d.put j.stem (p.set i { p[i] with mark := mark })).pay 16, .ok p[i].mark) := by
  have hread := jnlIdxRead_spec h hf (i := i) (n := 1) (by decide) (by omega)
  have h0 := getD_indexEntries (n := 1) (by decide : 0 < 1) hi ⟨0, 0⟩
  simp only [Nat.add_zero] at h0
  simp only [jnlReplaceLastMark, hread, h0, jnlIdxWrite]
  rw [Disk.writeIdxAt_of_can (by simpa using hcan) hat h.idx, ← idxBytes_set_mark p hi,
    Disk.put_of_log (p := p.set i { p[i] with mark := mark }) _ rfl, length_indexEntryBytes]
  rw [h.log, logBytes_set_mark p hi]

end Holds

end Scambio
