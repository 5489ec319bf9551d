import Scambio.Commons.Host
import Scambio.Lib.Error
import Scambio.Library.Segments
import Mathlib.Logic.Function.Basic

/-!
# Disk — the files of a mdir directory and the I/O helpers of `commons/misc.c`

A journal is a pair of files `stem.log` and `stem.idx`; the disk maps each stem to the contents of
the two files, and also holds the `perms` file.

To speak of crashes the disk has a `power` field: `none` while nothing goes wrong, otherwise the
number of bytes that still reach the disk.  Writes past that point are lost, so running a function on
a disk about to lose power leaves exactly what an interrupted run leaves.  A write goes to an open
descriptor: nothing is written to a file that is not there.
-/

namespace Scambio

open Library

/-- How much still reaches the disk: so many bytes, and whether a file that would be created right at
that point is. -/
structure Power where
  bytes : Nat
  creat : Bool
  deriving DecidableEq, Repr

structure Disk where
  log : Bytes → Option Bytes
  idx : Bytes → Option Bytes
  perms : Option Bytes
  power : Option Power

namespace Disk

/-- An empty directory. -/
def empty : Disk :=
  { log := fun _ => none, idx := fun _ => none, perms := none, power := none }

def logOf (d : Disk) (stem : Bytes) : Bytes :=
  (d.log stem).getD []

def idxOf (d : Disk) (stem : Bytes) : Bytes :=
  (d.idx stem).getD []

/-- The part of a write that reaches the disk. -/
def reached (d : Disk) (w : Bytes) : Bytes :=
  match d.power with
  | none => w
  | some p => w.take p.bytes

/-- The power left after a write of `n` bytes; none at all when the write was cut short. -/
def spend (d : Disk) (n : Nat) : Option Power :=
  d.power.map fun p =>
    if p.bytes < n then { bytes := 0, creat := false } else { p with bytes := p.bytes - n }

def mayCreat (d : Disk) : Bool :=
  match d.power with
  | none => true
  | some p => decide (0 < p.bytes) || p.creat

/-- `open(path, O_CREAT)` of both files of a journal. -/
def creat (d : Disk) (stem : Bytes) : Disk :=
  if d.mayCreat then
    { d with
      log := Function.update d.log stem (some (d.logOf stem))
      idx := Function.update d.idx stem (some (d.idxOf stem)) }
  else d

/-- `Write(patch_fd, w)`: the descriptor is in append mode. -/
def writeLog (d : Disk) (stem w : Bytes) : Disk :=
  { d with
    log := Function.update d.log stem ((d.log stem).map (· ++ d.reached w))
    power := d.spend w.length }

/-- `Write(idx_fd, w)`: the descriptor is in append mode. -/
def writeIdx (d : Disk) (stem w : Bytes) : Disk :=
  { d with
    idx := Function.update d.idx stem ((d.idx stem).map (· ++ d.reached w))
    power := d.spend w.length }

/-- `WriteTo(repatch_fd, offset, w)`: this descriptor is not in append mode. -/
def writeLogAt (d : Disk) (stem : Bytes) (offset : Nat) (w : Bytes) : Disk :=
  { d with
    log := Function.update d.log stem
      ((d.log stem).map fun f => overwrite 0 f offset (d.reached w))
    power := d.spend w.length }

/-- `WriteTo(idx_fd, offset, w)`: a positional write on an append-mode descriptor. -/
def writeIdxAt [Host] (d : Disk) (stem : Bytes) (offset : Nat) (w : Bytes) : Disk :=
  match Host.appendPwrite with
  | .atEnd => d.writeIdx stem w
  | .atOffset =>
      { d with
        idx := Function.update d.idx stem
          ((d.idx stem).map fun f => overwrite 0 f offset (d.reached w))
        power := d.spend w.length }

/-- The perms file after `header_to_file`: opened without truncation, written from its start. -/
def writePerms (d : Disk) (w : Bytes) : Disk :=
  { d with
    perms :=
      match d.perms with
      | some f => some (overwrite 0 f 0 (d.reached w))
      | none => if d.mayCreat then some (d.reached w) else none
    power := d.spend w.length }

/-! ## Writes that reach the disk -/

/-- Enough power for a write of `n` bytes. -/
def Can (d : Disk) (n : Nat) : Prop :=
  ∀ p, d.power = some p → n ≤ p.bytes

/-- The disk once `n` bytes were written. -/
def pay (d : Disk) (n : Nat) : Disk :=
  { d with power := d.power.map fun p => { p with bytes := p.bytes - n } }

theorem Can.mono {d : Disk} {m n : Nat} (h : d.Can n) (hle : m ≤ n) : d.Can m :=
  fun p hp => Nat.le_trans hle (h p hp)

theorem can_of_power_none {d : Disk} (h : d.power = none) (n : Nat) : d.Can n := by
  intro p hp
  simp [h] at hp

theorem Can.pay {d : Disk} {m n : Nat} (h : d.Can (m + n)) : (d.pay m).Can n := by
  intro p hp
  rcases Option.map_eq_some_iff.1 hp with ⟨q, hq, rfl⟩
  have := h q hq
  simp only
  omega

theorem Can.reached {d : Disk} {w : Bytes} (h : d.Can w.length) : d.reached w = w := by
  unfold Disk.reached
  cases hp : d.power with
  | none => rfl
  | some p => exact List.take_of_length_le (h p hp)

theorem Can.spend {d : Disk} {n : Nat} (h : d.Can n) : d.spend n = (d.pay n).power := by
  unfold Disk.spend Disk.pay
  cases hp : d.power with
  | none => rfl
  | some p => simp [Nat.not_lt.2 (h p hp)]

theorem pay_of_power_none {d : Disk} (h : d.power = none) (n : Nat) : d.pay n = d := by
  rcases d with ⟨log, idx, perms, power⟩
  simp only at h
  simp [Disk.pay, h]

theorem pay_pay (d : Disk) (m n : Nat) : (d.pay m).pay n = d.pay (m + n) := by
  rcases d with ⟨log, idx, perms, _ | power⟩ <;> simp [Disk.pay, Nat.sub_sub]

@[simp] theorem pay_log (d : Disk) (n : Nat) : (d.pay n).log = d.log := rfl
@[simp] theorem pay_idx (d : Disk) (n : Nat) : (d.pay n).idx = d.idx := rfl

def setLog (d : Disk) (stem f : Bytes) : Disk :=
  { d with log := Function.update d.log stem (some f) }

def setIdx (d : Disk) (stem f : Bytes) : Disk :=
  { d with idx := Function.update d.idx stem (some f) }

section Write

variable {d : Disk} {stem w f : Bytes} (h : d.Can w.length)

include h

theorem writeLog_of_can (hf : d.log stem = some f) :
    d.writeLog stem w = (d.setLog stem (f ++ w)).pay w.length := by
  simp [writeLog, h.reached, h.spend, hf, setLog, Disk.pay]

theorem writeIdx_of_can (hf : d.idx stem = some f) :
    d.writeIdx stem w = (d.setIdx stem (f ++ w)).pay w.length := by
  simp [writeIdx, h.reached, h.spend, hf, setIdx, Disk.pay]

theorem writeLogAt_of_can (hf : d.log stem = some f) (offset : Nat) :
    d.writeLogAt stem offset w = (d.setLog stem (overwrite 0 f offset w)).pay w.length := by
  simp [writeLogAt, h.reached, h.spend, hf, setLog, Disk.pay]

theorem writeIdxAt_of_can [Host] (hat : Host.appendPwrite = .atOffset) (hf : d.idx stem = some f)
    (offset : Nat) :
    d.writeIdxAt stem offset w = (d.setIdx stem (overwrite 0 f offset w)).pay w.length := by
  simp [writeIdxAt, hat, h.reached, h.spend, hf, setIdx, Disk.pay]

end Write

end Disk

/-- `ReadFrom(buf, fd, offset, len)` on the contents of a file. -/
def readFrom (file : Bytes) (offset : Int) (len : Nat) : Except Err Bytes :=
  if len = 0 then .ok []
  else if offset < 0 then .error (.push EINVAL (ascii "Cannot pth_pread"))
  else if offset.toNat + len ≤ file.length then .ok (slice file offset.toNat len)
  else .error (.push 0 (ascii "EOF"))

end Scambio
