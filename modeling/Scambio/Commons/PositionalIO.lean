import Scambio.Commons.CString
import Scambio.Lib.Error
import Scambio.Library.Segments

/-!
# PositionalIO — the loops of `WriteTo` and `ReadFrom` (`commons/misc.c`)

The system answers each call of `pth_pwrite` or `pth_pread`: it moves some bytes, or it fails.  The answers are a
list, so that any pattern of short transfers and of errors is one.

* `writeToLoop`, `readFromLoop` : the two loops;
* `transfers`                   : which parts of the buffer are written, all at the same offset;
* `atOnce`                      : the first transfer that moves something moves it all;
* `exact_iff_undisturbed`       : what the parts leave of each other decides;
* `writeTo_exact_iff`           : a write at once is exact, and at the end of a file no other is;
* `writeTo_unsplit`             : a write that is not cut in parts leaves the data, or the start of it.
-/

namespace Scambio

open Library

def EINTR : Nat := 4
def EAGAIN : Nat := 11

def retryable (err : Nat) : Bool :=
  err == EINTR || err == EAGAIN

/-- What the system does with a call: at most `n` bytes are moved, or it fails. -/
inductive IoAnswer
  | moved (n : Nat)
  | failed (errno : Nat)
  deriving DecidableEq, Repr

/-- What is in the file after `data` was written; nothing is, when there is no data. -/
def pwriteFile (file : Bytes) (offset : Nat) (data : Bytes) : Bytes :=
  if data = [] then file else overwrite 0 file offset data

/-- `pth_pwrite`: the file, and what is returned. -/
def pthPwrite (answer : IoAnswer) (file data : Bytes) (offset : Int) : Bytes × Except Nat Nat :=
  match answer with
  | .failed errno => (file, .error errno)
  | .moved n =>
      if offset < 0 then (file, .error EINVAL)
      else (pwriteFile file offset.toNat (data.take n), .ok (data.take n).length)

/-- `pth_pread`: no byte is read at the end of the file only. -/
def pthPread (answer : IoAnswer) (file : Bytes) (count : Nat) (offset : Int) : Except Nat Bytes :=
  match answer with
  | .failed errno => .error errno
  | .moved n => if offset < 0 then .error EINVAL else .ok ((slice file offset.toNat count).take (max n 1))

section Loops

variable (offset : Int)

/-- The loop of `WriteTo`: the file, and the error if one is raised.  The call has not returned when there are no
answers left. -/
def writeToLoop (buf : Bytes) : List IoAnswer → Bytes → Nat → Option (Bytes × Option Err)
  | [], file, done => if done < buf.length then none else some (file, none)
  | answer :: answers, file, done =>
      if done < buf.length then
        -- the buffer goes on, the offset does not
        match pthPwrite answer file (buf.drop done) offset with
        | (file, .error errno) =>
            if retryable errno then writeToLoop buf answers file done
            else
              some (file, some (.push errno (ascii "Cannot write " ++ printInt (buf.length - done : Nat) ++ ascii " bytes")))
        | (file, .ok ret) => writeToLoop buf answers file (done + ret)
      else some (file, none)

def writeTo (answers : List IoAnswer) (file : Bytes) (buf : Bytes) : Option (Bytes × Option Err) :=
  writeToLoop offset buf answers file 0

/-- The loop of `ReadFrom`, with what it has read. -/
def readFromLoop (file : Bytes) (len : Nat) : List IoAnswer → Bytes → Option (Except Err Bytes)
  | [], buf => if buf.length < len then none else some (.ok buf)
  | answer :: answers, buf =>
      if buf.length < len then
        match pthPread answer file (len - buf.length) (offset + buf.length) with
        | .error errno =>
            if retryable errno then readFromLoop file len answers buf
            else some (.error (.push errno (ascii "Cannot pth_pread")))
        | .ok [] => some (.error (.push 0 (ascii "EOF")))
        | .ok data => readFromLoop file len answers (buf ++ data)
      else some (.ok buf)

end Loops

/-! ## Reading -/

/-- The answers that move bytes. -/
def IoAnswer.isMoved : IoAnswer → Bool
  | .moved _ => true
  | .failed _ => false

/-- Whether the first transfer that moves something moves the `len` bytes. -/
def atOnce (len : Nat) : List IoAnswer → Bool
  | [] => len == 0
  | .failed _ :: answers => atOnce len answers
  | .moved n :: answers => decide (len ≤ n) || (n == 0 && atOnce len answers)

/-- The errors among them are the ones after which the loops try again. -/
def Interrupted (answers : List IoAnswer) : Prop :=
  ∀ errno, .failed errno ∈ answers → retryable errno = true

theorem Interrupted.tail {answer : IoAnswer} {answers : List IoAnswer} (h : Interrupted (answer :: answers)) :
    Interrupted answers :=
  fun errno hmem => h errno (List.mem_cons_of_mem _ hmem)

/-- Bytes that are in the file are read, however they come. -/
theorem readFromLoop_eq {file : Bytes} {start len : Nat} (hfile : start + len ≤ file.length)
    {answers : List IoAnswer} (hanswers : Interrupted answers) {done : Nat} (hdone : done ≤ len)
    (henough : len - done ≤ answers.countP IoAnswer.isMoved) :
    readFromLoop start file len answers (slice file start done) = some (.ok (slice file start len)) := by
  have hlen : ∀ {n}, n ≤ len → (slice file start n).length = n := by
    intro n hn
    rw [slice, List.length_take, List.length_drop]
    omega
  induction answers generalizing done with
  | nil =>
      have hall : done = len := by
        rw [List.countP_nil] at henough
        omega
      rw [readFromLoop, hlen hdone, if_neg (by omega), hall]
  | cons answer answers ih =>
      rw [readFromLoop, hlen hdone]
      split
      next hlt =>
        have hneg : ¬ (start : Int) + (done : Nat) < 0 := by omega
        have hstart : ((start : Int) + (done : Nat)).toNat = start + done := by omega
        cases answer with
        | failed errno =>
            have hretry : retryable errno = true := hanswers errno List.mem_cons_self
            simp only [pthPread, hretry, if_true]
            exact ih hanswers.tail hdone (by simpa [IoAnswer.isMoved] using henough)
        | moved n =>
            simp only [pthPread, if_neg hneg, hstart]
            -- the next bytes, one at least
            have hdata : slice file start (done + min (max n 1) (len - done)) =
                slice file start done ++ (slice file (start + done) (len - done)).take (max n 1) := by
              rw [slice, slice, slice, List.take_take, List.take_add, List.drop_drop]
            have hmore : done + min (max n 1) (len - done) ≤ len := by omega
            cases hread : (slice file (start + done) (len - done)).take (max n 1) with
            | nil =>
                have hzero := congrArg List.length hread
                rw [List.length_take, slice, List.length_take, List.length_drop, List.length_nil] at hzero
                omega
            | cons c data =>
                rw [hread] at hdata
                simp only [← hdata]
                apply ih hanswers.tail hmore
                rw [List.countP_cons_of_pos rfl] at henough
                omega
      next hge =>
        have hall : done = len := by omega
        rw [hall]

/-! ## Writing -/

/-- A byte behind the offset is the one of the data, as far as the data reach. -/
theorem getElem?_pwriteFile (file data : Bytes) (start i : Nat) :
    (pwriteFile file start data)[start + i]? = if i < data.length then data[i]? else file[start + i]? := by
  by_cases hdata : data = []
  · subst hdata
    rfl
  rw [pwriteFile, if_neg hdata]
  split
  next hi => exact getElem?_overwrite_add 0 file data start hi
  next hi =>
    by_cases hfile : start + i < file.length
    · exact getElem?_overwrite_of_lt 0 file data hfile (.inr (by omega))
    · have hlen : (overwrite 0 file start data).length ≤ start + i := by
        rw [length_overwrite]
        omega
      rw [List.getElem?_eq_none hlen, List.getElem?_eq_none (Nat.le_of_not_lt hfile)]

/-- In front of the offset nothing changes, but for a gap that is filled. -/
theorem getElem?_pwriteFile_of_lt (file data : Bytes) {start k : Nat} (hk : k < start) :
    (pwriteFile file start data)[k]? = file[k]? ∨
      file.length ≤ k ∧ (pwriteFile file start data)[k]? = some 0 := by
  by_cases hdata : data = []
  · subst hdata
    exact .inl rfl
  rw [pwriteFile, if_neg hdata]
  by_cases hfile : k < file.length
  · exact .inl (getElem?_overwrite_of_lt 0 file data hfile (.inl hk))
  · exact .inr ⟨Nat.le_of_not_lt hfile, getElem?_overwrite_gap 0 file data (Nat.le_of_not_lt hfile) hk⟩

/-- The parts of a buffer of `len` bytes that are written, by where they begin and how long they are. -/
def transfers (len : Nat) : List IoAnswer → Nat → List (Nat × Nat)
  | [], _ => []
  | .failed _ :: answers, done => transfers len answers done
  | .moved n :: answers, done =>
      if done < len then (done, min n (len - done)) :: transfers len answers (done + min n (len - done)) else []

/-- All the parts are written at the offset itself. -/
def writeParts (start : Nat) (buf : Bytes) (parts : List (Nat × Nat)) (file : Bytes) : Bytes :=
  parts.foldl (fun file part => pwriteFile file start (slice buf part.1 part.2)) file

/-- Where the last part begins that is longer than `i`. -/
def lastReaching (i : Nat) : List (Nat × Nat) → Option Nat
  | [] => none
  | part :: parts => (lastReaching i parts).or (if i < part.2 then some part.1 else none)

/-- What is behind the offset once the parts are written. -/
def byteAt (file : Bytes) (start : Nat) (buf : Bytes) (parts : List (Nat × Nat)) (i : Nat) : Option UInt8 :=
  match lastReaching i parts with
  | some begin => buf[begin + i]?
  | none => file[start + i]?

theorem transfers_fits {len done : Nat} {answers : List IoAnswer} {part : Nat × Nat}
    (h : part ∈ transfers len answers done) : done ≤ part.1 ∧ part.1 + part.2 ≤ len := by
  induction answers generalizing done with
  | nil => cases h
  | cons answer answers ih =>
      cases answer with
      | failed errno => exact ih h
      | moved n =>
          rw [transfers] at h
          split at h
          · rcases List.mem_cons.1 h with rfl | h
            · exact ⟨Nat.le_refl _, by dsimp only; omega⟩
            · have hpart := ih h
              omega
          · cases h

theorem transfers_of_le {len done : Nat} (h : len ≤ done) (answers : List IoAnswer) :
    transfers len answers done = [] := by
  induction answers with
  | nil => rfl
  | cons answer answers ih =>
      cases answer with
      | failed errno => exact ih
      | moved n => rw [transfers, if_neg (Nat.not_lt_of_ge h)]

/-- A loop that ends without an error has written the parts, and they make the buffer. -/
theorem writeToLoop_eq {start : Nat} {buf file file' : Bytes} {answers : List IoAnswer} {done : Nat}
    (hdone : done ≤ buf.length) (h : writeToLoop start buf answers file done = some (file', none)) :
    file' = writeParts start buf (transfers buf.length answers done) file ∧
      done + ((transfers buf.length answers done).map Prod.snd).sum = buf.length := by
  induction answers generalizing file done with
  | nil =>
      rw [writeToLoop] at h
      split at h
      · cases h
      · cases h
        exact ⟨rfl, by simp only [transfers, List.map_nil, List.sum_nil]; omega⟩
  | cons answer answers ih =>
      rw [writeToLoop] at h
      split at h
      next hlt =>
        cases answer with
        | failed errno =>
            simp only [pthPwrite] at h
            split at h
            · exact ih hdone h
            · cases h
        | moved n =>
            have hneg : ¬ (start : Int) < 0 := by omega
            have hsize : ((buf.drop done).take n).length = min n (buf.length - done) := by
              rw [List.length_take, List.length_drop]
            have hdata : (buf.drop done).take n = slice buf done (min n (buf.length - done)) := by
              rw [slice, ← List.length_drop, ← List.take_eq_take_min]
            simp only [pthPwrite, if_neg hneg, Int.toNat_natCast, hsize] at h
            rcases ih (by omega) h with ⟨hfile, hsum⟩
            rw [transfers, if_pos hlt]
            refine ⟨?_, ?_⟩
            · rw [hfile, hdata]
              rfl
            · rw [List.map_cons, List.sum_cons]
              omega
      next hge =>
        cases h
        rw [transfers_of_le (Nat.le_of_not_lt hge)]
        exact ⟨rfl, by rw [List.map_nil, List.sum_nil]; omega⟩

theorem getElem?_writeParts {buf : Bytes} {parts : List (Nat × Nat)} (hfit : ∀ part ∈ parts, part.1 + part.2 ≤ buf.length)
    (file : Bytes) (start i : Nat) :
    (writeParts start buf parts file)[start + i]? = byteAt file start buf parts i := by
  induction parts generalizing file with
  | nil => rfl
  | cons part parts ih =>
      have hnext := ih (fun part hpart => hfit part (List.mem_cons_of_mem _ hpart))
        (pwriteFile file start (slice buf part.1 part.2))
      have hlen : (slice buf part.1 part.2).length = part.2 := by
        have hpart := hfit part List.mem_cons_self
        rw [slice, List.length_take, List.length_drop]
        omega
      rw [writeParts, List.foldl_cons, ← writeParts, hnext, byteAt, byteAt, lastReaching]
      cases lastReaching i parts with
      | some begin => rfl
      | none =>
          -- no later part is long enough to write it again
          simp only [getElem?_pwriteFile, hlen]
          split
          next hi => rw [slice, List.getElem?_take, if_pos hi, List.getElem?_drop]; rfl
          next hi => rfl

theorem writeParts_elsewhere (buf : Bytes) (parts : List (Nat × Nat)) (file : Bytes) {start k : Nat} (hk : k < start) :
    (writeParts start buf parts file)[k]? = file[k]? ∨
      file.length ≤ k ∧ (writeParts start buf parts file)[k]? = some 0 := by
  induction parts generalizing file with
  | nil => exact .inl rfl
  | cons part parts ih =>
      rw [writeParts, List.foldl_cons, ← writeParts]
      rcases ih (pwriteFile file start (slice buf part.1 part.2)) with hsame | ⟨hlen, hzero⟩
      · rw [hsame]
        exact getElem?_pwriteFile_of_lt file _ hk
      · rcases getElem?_pwriteFile_of_lt file (slice buf part.1 part.2) hk with hbefore | ⟨hgap, -⟩
        · rw [List.getElem?_eq_none hlen, eq_comm, List.getElem?_eq_none_iff] at hbefore
          exact .inr ⟨hbefore, hzero⟩
        · exact .inr ⟨hgap, hzero⟩

/-- What `WriteTo` is for: the buffer is in its range of the file, the rest is as before, and the range can be read. -/
structure Exact (file file' : Bytes) (offset : Int) (buf : Bytes) : Prop where
  holds : slice file' offset.toNat buf.length = buf
  elsewhere : ∀ k, ¬ (offset.toNat ≤ k ∧ k < offset.toNat + buf.length) →
    file'[k]? = file[k]? ∨ file.length ≤ k ∧ k < offset.toNat ∧ file'[k]? = some 0
  readBack : ∀ answers, Interrupted answers → buf.length ≤ answers.countP IoAnswer.isMoved →
    readFromLoop offset file' buf.length answers [] = some (.ok buf)

/-- No part is written over with another: each byte of the buffer is the one that the last part brings to its
place, or was there before. -/
def Undisturbed (file : Bytes) (offset : Int) (buf : Bytes) (answers : List IoAnswer) : Prop :=
  ∀ i < buf.length, byteAt file offset.toNat buf (transfers buf.length answers 0) i = buf[i]?

/-- Nothing can be written in front of a file. -/
theorem writeToLoop_neg {offset : Int} (hneg : offset < 0) {buf file file' : Bytes} {answers : List IoAnswer}
    (h : writeToLoop offset buf answers file 0 = some (file', none)) : buf = [] ∧ file' = file := by
  induction answers with
  | nil =>
      rw [writeToLoop] at h
      split at h
      · cases h
      next hlen =>
        cases h
        exact ⟨List.eq_nil_of_length_eq_zero (by omega), rfl⟩
  | cons answer answers ih =>
      rw [writeToLoop] at h
      split at h
      · cases answer with
        | failed errno =>
            simp only [pthPwrite] at h
            split at h
            · exact ih h
            · cases h
        | moved n =>
            simp only [pthPwrite, if_pos hneg, show retryable EINVAL = false from rfl] at h
            cases h
      next hlen =>
        cases h
        exact ⟨List.eq_nil_of_length_eq_zero (by omega), rfl⟩

theorem lastReaching_eq_none {i : Nat} {parts : List (Nat × Nat)} (h : ∀ part ∈ parts, part.2 ≤ i) :
    lastReaching i parts = none := by
  induction parts with
  | nil => rfl
  | cons part parts ih =>
      have hpart : ¬ i < part.2 := Nat.not_lt_of_ge (h part List.mem_cons_self)
      rw [lastReaching, ih fun part hpart => h part (List.mem_cons_of_mem _ hpart), if_neg hpart]
      rfl

theorem exists_of_lastReaching {i begin : Nat} {parts : List (Nat × Nat)} (h : lastReaching i parts = some begin) :
    ∃ part ∈ parts, i < part.2 := by
  by_contra hnot
  rw [lastReaching_eq_none fun part hpart => Nat.le_of_not_lt fun hlt => hnot ⟨part, hpart, hlt⟩] at h
  cases h

/-- The buffer in its range is all that matters. -/
theorem exact_of_holds {start : Nat} {buf file : Bytes} {parts : List (Nat × Nat)}
    (hfit : ∀ part ∈ parts, part.1 + part.2 ≤ buf.length)
    (h : slice (writeParts start buf parts file) start buf.length = buf) :
    Exact file (writeParts start buf parts file) start buf := by
  refine ⟨h, ?_, ?_⟩
  · intro k hk
    rw [Int.toNat_natCast] at hk ⊢
    by_cases hlt : k < start
    · rcases writeParts_elsewhere buf parts file hlt with hsame | hgap
      · exact .inl hsame
      · exact .inr ⟨hgap.1, hlt, hgap.2⟩
    · obtain ⟨i, rfl⟩ := Nat.exists_eq_add_of_le (Nat.le_of_not_lt hlt)
      have hpast : lastReaching i parts = none := by
        apply lastReaching_eq_none
        intro part hpart
        have hle := hfit part hpart
        omega
      exact .inl (by rw [getElem?_writeParts hfit, byteAt, hpast])
  · intro answers hanswers henough
    by_cases hbuf : buf = []
    · subst hbuf
      cases answers <;> rfl
    · have hpos := List.length_pos_iff.2 hbuf
      have hlen := congrArg List.length h
      rw [slice, List.length_take, List.length_drop] at hlen
      have hfile : start + buf.length ≤ (writeParts start buf parts file).length := by omega
      have hread := readFromLoop_eq hfile hanswers (Nat.zero_le _) henough
      rwa [h] at hread

/-- When the buffer is in the file after `WriteTo`, byte by byte. -/
theorem exact_iff_undisturbed {offset : Int} {buf file file' : Bytes} {answers : List IoAnswer}
    (h : writeTo offset answers file buf = some (file', none)) :
    Exact file file' offset buf ↔ Undisturbed file offset buf answers := by
  rcases Int.lt_or_le offset 0 with hneg | hpos
  · rcases writeToLoop_neg hneg h with ⟨rfl, rfl⟩
    refine ⟨fun _ i hi => absurd hi (Nat.not_lt_zero i), fun _ => ⟨rfl, fun _ _ => .inl rfl, ?_⟩⟩
    intro answers _ _
    cases answers <;> rfl
  · obtain ⟨start, rfl⟩ := Int.eq_ofNat_of_zero_le hpos
    obtain ⟨rfl, -⟩ := writeToLoop_eq (Nat.zero_le _) h
    have hfit : ∀ part ∈ transfers buf.length answers 0, part.1 + part.2 ≤ buf.length :=
      fun part hpart => (transfers_fits hpart).2
    have hholds : slice (writeParts start buf (transfers buf.length answers 0) file) start buf.length = buf ↔
        Undisturbed file start buf answers := by
      rw [slice_eq_iff]
      exact forall₂_congr fun i _ => by rw [getElem?_writeParts hfit, Int.toNat_natCast]
    exact ⟨fun hexact => hholds.1 hexact.holds, fun hparts => exact_of_holds hfit (hholds.2 hparts)⟩

/-! ## Whole writes -/

/-- A part as long as the buffer is the only one with something in it. -/
theorem lastReaching_whole {len i : Nat} (hi : i < len) {answers : List IoAnswer}
    (h : (0, len) ∈ transfers len answers 0) : lastReaching i (transfers len answers 0) = some 0 := by
  induction answers with
  | nil => cases h
  | cons answer answers ih =>
      cases answer with
      | failed errno => exact ih h
      | moved n =>
          have hpos : 0 < len := Nat.lt_of_le_of_lt (Nat.zero_le i) hi
          rw [transfers, if_pos hpos, Nat.sub_zero, Nat.zero_add] at h ⊢
          rw [lastReaching]
          rcases Nat.eq_zero_or_pos (min n len) with hzero | hsome
          · -- nothing was written, and the whole may still come
            rw [hzero] at h ⊢
            rcases List.mem_cons.1 h with heq | h
            · rw [Prod.mk.injEq] at heq
              omega
            · rw [ih h]
              rfl
          · rcases List.mem_cons.1 h with heq | h
            · rw [Prod.mk.injEq] at heq
              rw [← heq.2, transfers_of_le (Nat.le_refl len), lastReaching, if_pos hi]
              rfl
            · have hfit := (transfers_fits h).1
              omega

theorem undisturbed_of_whole {offset : Int} {buf file : Bytes} {answers : List IoAnswer}
    (h : buf = [] ∨ (0, buf.length) ∈ transfers buf.length answers 0) : Undisturbed file offset buf answers := by
  rcases h with rfl | hwhole
  · exact fun i hi => absurd hi (Nat.not_lt_zero i)
  · intro i hi
    simp only [byteAt, lastReaching_whole hi hwhole, Nat.zero_add]

/-- Where the file ends before the range does, the buffer must be written at once. -/
theorem undisturbed_iff_whole {start : Nat} {buf file : Bytes} (hshort : file.length < start + buf.length)
    (answers : List IoAnswer) :
    Undisturbed file start buf answers ↔ buf = [] ∨ (0, buf.length) ∈ transfers buf.length answers 0 := by
  constructor
  · intro h
    by_cases hbuf : buf = []
    · exact .inl hbuf
    · -- its last byte can only come from a part that is all of it
      have hpos := List.length_pos_iff.2 hbuf
      have hlast := h (buf.length - 1) (by omega)
      rw [Int.toNat_natCast, byteAt] at hlast
      cases hreach : lastReaching (buf.length - 1) (transfers buf.length answers 0) with
      | none =>
          rw [hreach] at hlast
          simp only at hlast
          rw [List.getElem?_eq_none (by omega), eq_comm, List.getElem?_eq_none_iff] at hlast
          omega
      | some begin =>
          rcases exists_of_lastReaching hreach with ⟨part, hpart, hlong⟩
          have hfit := transfers_fits hpart
          have hwhole : part = (0, buf.length) := Prod.ext (by dsimp only; omega) (by dsimp only; omega)
          exact .inr (hwhole ▸ hpart)
  · exact undisturbed_of_whole

/-- The answers tell whether one of the parts is the buffer. -/
theorem atOnce_iff (len : Nat) (answers : List IoAnswer) :
    atOnce len answers = true ↔ len = 0 ∨ (0, len) ∈ transfers len answers 0 := by
  induction answers with
  | nil => simp [atOnce, transfers]
  | cons answer answers ih =>
      cases answer with
      | failed errno => exact ih
      | moved n =>
          rw [atOnce, Bool.or_eq_true, Bool.and_eq_true, decide_eq_true_eq, beq_iff_eq, ih]
          rcases Nat.eq_zero_or_pos len with rfl | hpos
          · simp
          rw [transfers, if_pos hpos, Nat.sub_zero, Nat.zero_add, List.mem_cons]
          rcases Nat.eq_zero_or_pos n with rfl | hn
          · rw [Nat.zero_min]
            simp [Nat.not_le.2 hpos]
          · -- what comes after it begins further on
            have hrest : (0, len) ∉ transfers len answers (min n len) := by
              intro hmem
              have hfit := (transfers_fits hmem).1
              omega
            simp only [hrest, or_false, Prod.mk.injEq, true_and]
            omega

/-- A buffer that one transfer takes is in the file; where the file ends before the range does, as for every append,
it is in no other case. -/
theorem writeTo_exact_iff {offset : Int} {buf file file' : Bytes} {answers : List IoAnswer}
    (h : writeTo offset answers file buf = some (file', none)) :
    (atOnce buf.length answers = true → Exact file file' offset buf) ∧
      (file.length < offset + buf.length →
        (Exact file file' offset buf ↔ atOnce buf.length answers = true)) := by
  rw [exact_iff_undisturbed h, atOnce_iff, List.length_eq_zero_iff]
  constructor
  · exact undisturbed_of_whole
  · intro hshort
    rcases Int.lt_or_le offset 0 with hneg | hpos
    · rcases writeToLoop_neg hneg h with ⟨rfl, -⟩
      rw [List.length_nil] at hshort
      omega
    · obtain ⟨start, rfl⟩ := Int.eq_ofNat_of_zero_le hpos
      exact undisturbed_iff_whole (by omega) answers

/-- Nothing is written behind a part that has something in it. -/
def Unsplit (len : Nat) (answers : List IoAnswer) : Prop :=
  (transfers len answers 0).Pairwise fun part _ => part.2 = 0

/-- A loop that writes nothing more. -/
theorem writeToLoop_rest {offset : Int} {buf file file' : Bytes} {answers : List IoAnswer} {done : Nat} {e : Option Err}
    (hnone : transfers buf.length answers done = [])
    (h : writeToLoop offset buf answers file done = some (file', e)) : file' = file ∧ (e = none → buf.length ≤ done) := by
  induction answers with
  | nil =>
      rw [writeToLoop] at h
      split at h
      · cases h
      next hge =>
        cases h
        exact ⟨rfl, fun _ => Nat.le_of_not_lt hge⟩
  | cons answer answers ih =>
      rw [writeToLoop] at h
      split at h
      next hlt =>
        cases answer with
        | failed errno =>
            simp only [pthPwrite] at h
            split at h
            · exact ih hnone h
            · cases h
              exact ⟨rfl, fun hsome => nomatch hsome⟩
        | moved n =>
            rw [transfers, if_pos hlt] at hnone
            cases hnone
      next hge =>
        cases h
        exact ⟨rfl, fun _ => Nat.le_of_not_lt hge⟩

/-- A write that is not cut in parts: all of the data is in the file, or the start of it after an error. -/
theorem writeTo_unsplit {start : Nat} {buf file file' : Bytes} {answers : List IoAnswer} {e : Option Err}
    (hunsplit : Unsplit buf.length answers) (h : writeTo start answers file buf = some (file', e)) :
    (∃ n, file' = pwriteFile file start (buf.take n)) ∧ (e = none → file' = pwriteFile file start buf) := by
  have hempty : ¬ 0 < buf.length → file = pwriteFile file start buf := fun hlen => by
    rw [pwriteFile, if_pos (List.eq_nil_of_length_eq_zero (by omega))]
  rw [writeTo] at h
  rw [Unsplit] at hunsplit
  induction answers with
  | nil =>
      rw [writeToLoop] at h
      split at h
      · cases h
      next hlen =>
        cases h
        exact ⟨⟨0, rfl⟩, fun _ => hempty hlen⟩
  | cons answer answers ih =>
      rw [writeToLoop] at h
      split at h
      next hlt =>
        cases answer with
        | failed errno =>
            simp only [pthPwrite] at h
            split at h
            · exact ih hunsplit h
            · cases h
              exact ⟨⟨0, rfl⟩, fun hsome => nomatch hsome⟩
        | moved n =>
            have hneg : ¬ (start : Int) < 0 := by omega
            have hsize : ((buf.drop 0).take n).length = min n buf.length := by rw [List.length_take, List.drop_zero]
            simp only [pthPwrite, if_neg hneg, Int.toNat_natCast, hsize, Nat.zero_add] at h
            rw [List.drop_zero] at h
            rw [transfers, if_pos hlt, Nat.sub_zero, Nat.zero_add, List.pairwise_cons] at hunsplit
            rcases Nat.eq_zero_or_pos (min n buf.length) with hzero | hsome
            · -- nothing is written yet
              have hn : n = 0 := by omega
              rw [hzero] at h hunsplit
              rw [hn, List.take_zero] at h
              exact ih hunsplit.2 h
            · -- something is, and nothing comes behind it
              have hlast : transfers buf.length answers (min n buf.length) = [] := by
                refine List.eq_nil_iff_forall_not_mem.2 fun part hpart => ?_
                exact absurd (hunsplit.1 part hpart) (Nat.ne_of_gt hsome)
              rcases writeToLoop_rest hlast h with ⟨rfl, hall⟩
              refine ⟨⟨n, rfl⟩, fun he => ?_⟩
              rw [List.take_of_length_le (by have := hall he; omega)]
      next hlen =>
        cases h
        exact ⟨⟨0, rfl⟩, fun _ => hempty hlen⟩

/-- A write that is interrupted first. -/
theorem writeTo_exact_iff_retried :
    (atOnce 2 [.failed EINTR, .moved 7] = true → Exact (ascii "xy") (ascii "xab") 1 (ascii "ab")) ∧
      ((2 : Int) < 1 + 2 →
        (Exact (ascii "xy") (ascii "xab") 1 (ascii "ab") ↔ atOnce 2 [.failed EINTR, .moved 7] = true)) := by
  have hwrite : writeTo 1 [.failed EINTR, .moved 7] (ascii "xy") (ascii "ab") = some (ascii "xab", none) := by decide
  exact writeTo_exact_iff hwrite

/-- A write in two parts: the second one is put over the first. -/
theorem not_exact_short :
    writeTo 0 [.moved 1, .moved 1] [] (ascii "ab") = some (ascii "b", none) ∧ ¬ Exact [] (ascii "b") 0 (ascii "ab") :=
  ⟨by decide, fun h => absurd h.holds (by decide)⟩

end Scambio
