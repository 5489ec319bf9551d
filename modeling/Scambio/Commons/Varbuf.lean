import Mathlib.Data.List.TakeWhile
import Scambio.Commons.CString

/-!
# Varbuf — reading lines into a buffer (`commons/varbuf.c`, `commons/misc.c`)

A `struct varbuf` is modelled by its content.  A file descriptor open for reading is the list of
the bytes still to come, the end of the list being the end of file.
-/

namespace Scambio

def MAX_HEADLINE_LENGTH : Nat := 10000
def MAX_HEADER_LINES : Nat := 300

/-- The C string that starts at the given bytes. -/
def cstr (s : Bytes) : Bytes :=
  s.takeWhile (· != 0)

theorem cstr_of_not_mem {s : Bytes} (h : (0 : UInt8) ∉ s) : cstr s = s := by
  refine List.takeWhile_eq_self_iff.2 fun c hc => ?_
  simpa using fun he : c = 0 => h (he ▸ hc)

theorem cstr_append {s : Bytes} (h : (0 : UInt8) ∉ s) (t : Bytes) : cstr (s ++ t) = s ++ cstr t := by
  refine List.takeWhile_append_of_pos fun c hc => ?_
  simpa using fun he : c = 0 => h (he ▸ hc)

theorem length_cstr_le (s : Bytes) : (cstr s).length ≤ s.length :=
  (List.takeWhile_prefix _).length_le

/-- A NUL hides what follows it. -/
theorem length_cstr_lt {s : Bytes} (h : (0 : UInt8) ∈ s) : (cstr s).length < s.length := by
  refine Nat.lt_of_le_of_ne (length_cstr_le s) fun heq => ?_
  have hall := List.takeWhile_eq_self_iff.1 ((List.takeWhile_prefix _).eq_of_length heq) 0 h
  exact absurd hall (by decide)

theorem cstr_append_of_mem {s : Bytes} (h : (0 : UInt8) ∈ s) (t : Bytes) : cstr (s ++ t) = cstr s := by
  have hne : ¬ (List.takeWhile (· != 0) s).length = s.length := Nat.ne_of_lt (length_cstr_lt h)
  rw [cstr, List.takeWhile_append, if_neg hne, cstr]

/-- `varbuf_put` with these sizes, in a block of `actual` bytes of which `used` are used: does one of them fill the block
to its last byte, so that the NUL is written behind it?  A block that is too small grows by what misses, half as much
again, and a byte. -/
def fillsBlock : Nat → Nat → List Nat → Bool
  | _, _, [] => false
  | actual, used, size :: sizes =>
      if actual < used + size then
        fillsBlock (used + size + (used + size - actual + 1) / 2 + 1) (used + size) sizes
      else if used + size = actual then true
      else fillsBlock actual (used + size) sizes

/-- One byte after the other meets every place in the block. -/
theorem fillsBlock_bytes {actual used : Nat} (hlt : used < actual) (n : Nat) :
    fillsBlock actual used (List.replicate n 1) = decide (actual ≤ used + n) := by
  induction n generalizing used with
  | zero => exact (decide_eq_false (Nat.not_le.2 hlt)).symm
  | succ n ih =>
      rw [List.replicate_succ, fillsBlock, if_neg (by omega)]
      split
      · next hfull => exact (decide_eq_true (by omega)).symm
      · next hroom => rw [ih (by omega), Nat.add_assoc, Nat.add_comm 1]

/-- What is appended at once meets its end only. -/
theorem fillsBlock_once (actual n : Nat) : fillsBlock actual 0 [n] = decide (n = actual) := by
  simp only [fillsBlock, Nat.zero_add]
  split
  · next hlarger => exact (decide_eq_false (by omega)).symm
  · split
    · next hfull => exact (decide_eq_true hfull).symm
    · next hroom => exact (decide_eq_false hroom).symm

/-- What one `varbuf_read_line` does: the bytes appended, the bytes left to read, and whether it
raised ENOENT. -/
structure LineRead where
  line : Bytes
  rest : Bytes
  eof : Bool
  deriving DecidableEq, Repr

/-- The loop of `varbuf_read_line`: `n` bytes were appended so far, `wasCR` tells that a CR is held
back.  A CR before anything but LF is passed on. -/
def readLineLoop (maxlen : Nat) : Nat → Bool → Bytes → LineRead
  | n, _, [] => { line := [], rest := [], eof := decide (n < maxlen) }
  | n, wasCR, byte :: rest =>
      if n < maxlen then
        if byte = 13 then readLineLoop maxlen n true rest
        else
          let new := if byte ≠ 10 ∧ wasCR = true then [13, byte] else [byte]
          if byte = 10 then { line := new, rest := rest, eof := false }
          else
            let next := readLineLoop maxlen (n + new.length) false rest
            { next with line := new ++ next.line }
      else { line := [], rest := byte :: rest, eof := false }

def varbufReadLine (maxlen : Nat) (fd : Bytes) : LineRead :=
  readLineLoop maxlen 0 false fd

/-- `line_match(line, "")`: nothing but white space. -/
def lineMatchEmpty (line : Bytes) : Bool :=
  (cstr line).all isspace

end Scambio
