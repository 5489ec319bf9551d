import Scambio.Lib.Reception
import Scambio.Lib.Sender

/-!
# CopySizes — the offset and the size of a COPY command (`lib/channel.c`)

Both come from the peer as 64-bit integers.  `serve_copy` makes an `off_t` of the one and a `size_t` of the other,
allocates a box, reads the data into it and records the fragment.

* `chnBoxAlloc`  : the room for data in the box, if there is one;
* `recordedFrag` : the fragment that is recorded, if it comes to that;
* `copySafe_iff` : the commands for which the box is large enough and no offset overflows.
-/

namespace Scambio

def PTRDIFF_MAX : Nat := 9223372036854775807

/-- `sizeof(struct chn_box)` -/
def CHN_BOX_SIZE : Nat := 4

/-- `malloc`, which has no blocks of more than `PTRDIFF_MAX` bytes. -/
structure Malloc where
  gives : Nat → Bool
  refuses : ∀ size, PTRDIFF_MAX < size → gives size = false

/-- `chn_box_alloc`: how many bytes there are behind the header of the box. -/
def chnBoxAlloc (malloc : Malloc) (bytes : Nat) : Option Int :=
  let size := (bytes + CHN_BOX_SIZE) % 2 ^ 64
  if malloc.gives size then some (size - CHN_BOX_SIZE : Int) else none

/-- The fragment that `serve_copy` gives to `in_frag_new`. -/
def recordedFrag (c : Copy) (env : CopyEnv) : Option Fragment :=
  if env.alloc && env.read && env.write.toBool && env.answered && env.fragAlloc then
    env.clock.map fun ts => inFrag ts c
  else none

/-- The fragments of the transfer change with it only. -/
theorem serveCopyTx_recorded {tx tx' : ChnTx} {c : Copy} {env : CopyEnv} {sent : List ChnSent} {finished : Bool}
    (h : serveCopyTx tx c env = .ok (tx', sent, finished)) :
    match recordedFrag c env with
    | none => tx'.inFrags = tx.inFrags
    | some f => tx' = (checkInFrags { tx with inFrags := insertByOffset f tx.inFrags } f.ts env.asks).1 := by
  unfold serveCopyTx at h
  unfold recordedFrag
  -- only a copy that passes every step before `in_frag_new` is registered
  cases halloc : env.alloc with
  | false =>
      rw [halloc] at h
      cases h
      rfl
  | true =>
      cases hread : env.read with
      | false =>
          rw [halloc, hread] at h
          cases h
          rfl
      | true =>
          simp only [halloc, hread, Bool.not_true, Bool.false_eq_true, if_false] at h
          split at h
          · cases h
          cases hwrite : env.write with
          | error e =>
              rw [hwrite] at h
              cases hs : chnTxSetStatus tx 501 with
              | error e =>
                  rw [hs] at h
                  cases h
              | ok t =>
                  rw [hs] at h
                  cases h
                  rw [(chnTxSetStatus_ok hs).2.2]
                  rfl
          | ok u =>
              rw [hwrite] at h
              cases hanswered : env.answered with
              | false =>
                  rw [hanswered] at h
                  cases h
                  rfl
              | true =>
                  cases hclock : env.clock with
                  | none =>
                      rw [hanswered, hclock] at h
                      cases h
                      cases env.fragAlloc <;> rfl
                  | some ts =>
                      rw [hanswered, hclock] at h
                      cases hfrag : env.fragAlloc with
                      | false =>
                          rw [hfrag] at h
                          cases h
                          rfl
                      | true =>
                          rw [hfrag] at h
                          cases h
                          rfl

/-- The box holds all that is read into it, and the fragment is where the data are. -/
structure CopySafe (c : Copy) : Prop where
  box : ∀ malloc capacity, chnBoxAlloc malloc c.size = some capacity → (c.size : Int) ≤ capacity
  fragment : ∀ malloc env f, env.alloc = (chnBoxAlloc malloc c.size).isSome → recordedFrag c env = some f →
    0 ≤ f.start ∧ f.start ≤ f.endAt ∧ f.endAt = c.offset + c.size

/-! ## Sizes that wrap -/

/-- A `malloc` that gives all it may. -/
def generous : Malloc where
  gives := fun size => decide (size ≤ PTRDIFF_MAX)
  refuses := fun _ h => decide_eq_false (Nat.not_le_of_gt h)

theorem chnBoxAlloc_small {c : Copy} (h : c.size + CHN_BOX_SIZE ≤ PTRDIFF_MAX) (malloc : Malloc) {capacity : Int}
    (halloc : chnBoxAlloc malloc c.size = some capacity) : capacity = c.size := by
  have hmod : (c.size + CHN_BOX_SIZE) % 2 ^ 64 = c.size + CHN_BOX_SIZE := by
    apply Nat.mod_eq_of_lt
    unfold PTRDIFF_MAX at h
    omega
  rw [chnBoxAlloc, hmod] at halloc
  split at halloc
  · cases halloc
    omega
  · cases halloc

/-- `malloc` refuses these sizes. -/
theorem chnBoxAlloc_large {c : Copy} (hlarge : PTRDIFF_MAX < c.size + CHN_BOX_SIZE) (hlt : c.size + CHN_BOX_SIZE < 2 ^ 64)
    (malloc : Malloc) : chnBoxAlloc malloc c.size = none := by
  rw [chnBoxAlloc, Nat.mod_eq_of_lt hlt, if_neg]
  rw [malloc.refuses _ hlarge]
  exact Bool.false_ne_true

/-- The header alone does not fit in what is given. -/
theorem chnBoxAlloc_wrapped {c : Copy} (hsize : c.size < 2 ^ 64) (hwrap : 2 ^ 64 ≤ c.size + CHN_BOX_SIZE) :
    ∃ capacity, chnBoxAlloc generous c.size = some capacity ∧ capacity < 0 := by
  have hmod : (c.size + CHN_BOX_SIZE) % 2 ^ 64 < CHN_BOX_SIZE := by
    unfold CHN_BOX_SIZE at hwrap ⊢
    omega
  have hgives : generous.gives ((c.size + CHN_BOX_SIZE) % 2 ^ 64) = true := by
    apply decide_eq_true
    have hsmall : CHN_BOX_SIZE ≤ PTRDIFF_MAX := by decide
    omega
  refine ⟨_, if_pos hgives, ?_⟩
  omega

theorem copyOfCmd_range {cmd : Cmd} {c : Copy} (h : copyOfCmd cmd = some c) :
    c.size < 2 ^ 64 ∧ -2 ^ 63 ≤ c.offset ∧ c.offset < 2 ^ 63 := by
  unfold copyOfCmd at h
  split at h
  next id offset size more hargs =>
    cases h
    refine ⟨by dsimp only; omega, offT_ge offset, ?_⟩
    have hlt := Int.bmod_lt (x := offset) (m := 2 ^ 64) (by decide)
    simp only [offT]
    omega
  · cases h

/-- The commands for which the sizes are safe: the size is one that `malloc` refuses, or offset and size are not
negative and make an `off_t`. -/
theorem copySafe_iff {cmd : Cmd} {c : Copy} (h : copyOfCmd cmd = some c) :
    CopySafe c ↔ (PTRDIFF_MAX < c.size + CHN_BOX_SIZE ∧ c.size + CHN_BOX_SIZE < 2 ^ 64) ∨
      (c.size + CHN_BOX_SIZE ≤ PTRDIFF_MAX ∧ 0 ≤ c.offset ∧ c.offset + c.size < 2 ^ 63) := by
  rcases copyOfCmd_range h with ⟨hsize, hlow, hhigh⟩
  constructor
  · intro hsafe
    by_cases hwrap : 2 ^ 64 ≤ c.size + CHN_BOX_SIZE
    · -- what is given is less than the header
      rcases chnBoxAlloc_wrapped hsize hwrap with ⟨capacity, halloc, hneg⟩
      have hle := hsafe.box generous capacity halloc
      omega
    · by_cases hlarge : PTRDIFF_MAX < c.size + CHN_BOX_SIZE
      · exact .inl ⟨hlarge, Nat.lt_of_not_le hwrap⟩
      · -- the box is there, so that the fragment tells of its offsets
        have hgives : (chnBoxAlloc generous c.size).isSome = true := by
          rw [chnBoxAlloc, Nat.mod_eq_of_lt (Nat.lt_of_not_le hwrap), if_pos]
          · rfl
          · exact decide_eq_true (Nat.le_of_not_lt hlarge)
        rcases hsafe.fragment generous (CopyEnv.fine 0) (inFrag 0 c) hgives.symm rfl with ⟨hstart, -, hend⟩
        have hlt := Int.bmod_lt (x := c.offset + c.size) (m := 2 ^ 64) (by decide)
        have hend' : Int.bmod (c.offset + c.size) (2 ^ 64) = c.offset + c.size := hend
        exact .inr ⟨Nat.le_of_not_lt hlarge, hstart, by omega⟩
  · rintro (⟨hlarge, hlt⟩ | ⟨hsmall, hpos, hend⟩)
    · -- no box, and nothing that is recorded
      refine ⟨?_, ?_⟩
      · intro malloc capacity halloc
        rw [chnBoxAlloc_large hlarge hlt] at halloc
        cases halloc
      · intro malloc env f halloc hfrag
        rw [chnBoxAlloc_large hlarge hlt, Option.isSome_none] at halloc
        rw [recordedFrag, halloc] at hfrag
        cases hfrag
    · refine ⟨?_, ?_⟩
      · intro malloc capacity halloc
        exact Int.le_of_eq (chnBoxAlloc_small hsmall malloc halloc).symm
      · intro malloc env f _ hfrag
        unfold recordedFrag at hfrag
        split at hfrag
        · obtain ⟨ts, -, rfl⟩ := Option.map_eq_some_iff.1 hfrag
          have hexact : offT (c.offset + c.size) = c.offset + c.size := offT_of_fits (by omega) (by omega)
          refine ⟨hpos, ?_, hexact⟩
          change c.offset ≤ offT (c.offset + c.size)
          omega
        · cases hfrag

/-- A size of -1: a box of three bytes is allocated, for 2^64 - 1 bytes of data. -/
def wrappedCopy : Copy where
  seq := 0
  id := 1
  offset := 0
  size := 2 ^ 64 - 1
  eof := false
  offset_ge := by decide

theorem copySafe_iff_wrapped :
    CopySafe wrappedCopy ↔ (PTRDIFF_MAX < wrappedCopy.size + CHN_BOX_SIZE ∧ wrappedCopy.size + CHN_BOX_SIZE < 2 ^ 64) ∨
      (wrappedCopy.size + CHN_BOX_SIZE ≤ PTRDIFF_MAX ∧ 0 ≤ wrappedCopy.offset ∧
        wrappedCopy.offset + wrappedCopy.size < 2 ^ 63) := by
  have hcmd : copyOfCmd ⟨copyDef, 0, [.integer 1, .integer 0, .integer (-1)]⟩ = some wrappedCopy := by decide
  exact copySafe_iff hcmd

theorem not_copySafe_wrapped :
    (mdirCmdRead (chnInit true) (ascii "copy 1 0 -1\n")).parse.result.toOption.bind copyOfCmd = some wrappedCopy ∧
      ¬ CopySafe wrappedCopy := by
  refine ⟨by decide, fun hsafe => ?_⟩
  have hle := hsafe.box generous (-1) (by decide)
  exact absurd hle (by decide)

end Scambio
