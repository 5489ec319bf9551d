import Scambio.Commons.PositionalIO
import Scambio.Commons.Varbuf

/-!
# VarbufMemory — buffers that grow, in memory (`commons/varbuf.c`)

A buffer is told by its content in `Commons.Varbuf`.  Here it is the block of memory that `malloc` gave: how much of
it is used, how much there is, and which bytes are in it.  `varbuf_ctor`, `varbuf_put` and `varbuf_make_room` each
care for the byte of the final NUL:

* the constructor has room for it but does not write it;
* `varbuf_put` finds that the block is full one byte too late, and `varbuf_make_room` has a byte more than it
  was asked for.

- `rep_ctor_iff`: when the buffer is well formed from the beginning.
- `put_spec`, `append_spec`, `readLineLoop_spec`: what the operations do where there is room.
- `appendStrs_fills`: strings are appended one after the other, or one of them fills the block exactly.
- `holds_of_fits`: in a run in which no operation fills the block exactly all buffers are well formed, and the content
  is what the operations say.
-/

namespace Scambio

open Library

def ENOMEM : Nat := 12

/-! ## Memory -/

/-- What a program that does not stop at it does wrong: it writes a byte that is not in the block, or an assertion
fails. -/
inductive VarbufFault
  | outOfBounds
  | assertion
  deriving DecidableEq, Repr

/-- A block from `malloc` or `realloc`: its address, and what happens to be in it. -/
structure Block where
  addr : Nat
  fill : Nat → UInt8

/-- The bytes of a block from a place on. -/
def Block.bytes (block : Block) (first len : Nat) : Bytes :=
  (List.range' first len).map block.fill

/-- `struct varbuf`, and the bytes that are allocated at `buf`. -/
structure Varbuf where
  used : Nat
  actual : Nat
  relocatable : Bool
  buf : Nat
  mem : Bytes
  deriving DecidableEq, Repr

def Varbuf.content (vb : Varbuf) : Bytes :=
  vb.mem.take vb.used

/-- A buffer in a run: how often `realloc` was called, and the error that is pending. -/
structure VbState where
  vb : Varbuf
  nbReallocs : Nat
  error : Option Err
  deriving DecidableEq, Repr

abbrev VbResult := Except VarbufFault VbState

/-- The sum of two `size_t`. -/
def addSize (a b : Nat) : Nat :=
  (a + b) % 2 ^ 64

/-- An answer of `pth_read` for one byte. -/
inductive ReadAnswer
  | byte (c : UInt8)
  | eof
  | failed (errno : Nat)
  deriving DecidableEq, Repr

/-! ## The operations -/

def varbufCtor (block : Block) (initSize : Nat) (relocatable : Bool) : VbState :=
  -- room for the NUL, which is not written
  let actual := addSize initSize 1
  ⟨⟨0, actual, relocatable, block.addr, block.bytes 0 actual⟩, 0, none⟩

namespace VbState

/-- Bytes are written at a place of the block. -/
def store (s : VbState) (pos : Nat) (bytes : Bytes) : VbResult :=
  if pos + bytes.length ≤ s.vb.mem.length then
    .ok { s with vb := { s.vb with mem := overwrite 0 s.vb.mem pos bytes } }
  else .error .outOfBounds

def nulterm (s : VbState) : VbResult :=
  s.store s.vb.used [0]

def setUsed (s : VbState) (used : Nat) : VbState :=
  { s with vb := { s.vb with used := used } }

/-- `varbuf_chop` -/
def chop (s : VbState) (size : Nat) : VbResult :=
  if size < s.vb.used then (s.setUsed (s.vb.used - size)).nulterm else .error .assertion

/-- `varbuf_cut`, at an address. -/
def cut (s : VbState) (newEnd : Nat) : VbResult :=
  if s.vb.buf ≤ newEnd ∧ newEnd ≤ s.vb.buf + s.vb.used then (s.setUsed (newEnd - s.vb.buf)).nulterm
  else .error .assertion

/-- `varbuf_clean` -/
def clean (s : VbState) : VbResult :=
  (s.setUsed 0).nulterm

section Growing

-- the blocks that `realloc` gives, one call after the other
variable (heap : Nat → Block)

/-- `varbuf_make_room`.  When `realloc` has moved a buffer that may not be, both blocks are freed. -/
def makeRoom (s : VbState) (newSize : Nat) : VbState :=
  let newSize := addSize newSize 1
  -- the NUL is counted
  if s.vb.actual ≥ newSize then s
  else
    let block := heap s.nbReallocs
    if block.addr ≠ s.vb.buf ∧ s.vb.relocatable = false then
      { vb := { s.vb with mem := [] }
        nbReallocs := s.nbReallocs + 1
        error := some (.push ENOMEM (ascii "Cannot extend not relocatable varbuf")) }
    else
      { s with
        vb := { s.vb with
          buf := block.addr
          actual := newSize
          mem := s.vb.mem ++ block.bytes s.vb.mem.length (newSize - s.vb.mem.length) }
        nbReallocs := s.nbReallocs + 1 }

/-- `varbuf_put` -/
def put (s : VbState) (size : Nat) : VbResult :=
  let sum := addSize s.vb.used size
  -- the NUL needs `sum ≥ actual` here
  if sum > s.vb.actual then
    let inc := sum - s.vb.actual
    let s := s.makeRoom heap (addSize (addSize s.vb.actual inc) (addSize inc 1 / 2))
    if s.error.isSome then .ok s else (s.setUsed (addSize s.vb.used size)).nulterm
  else (s.setUsed sum).nulterm

/-- `varbuf_append` -/
def append (s : VbState) (buf : Bytes) : VbResult :=
  -- `varbuf_put` has written the NUL behind what is copied now
  match s.put heap buf.length with
  | .error f => .error f
  | .ok s' => if s'.error.isSome then .ok s' else s'.store s.vb.used buf

/-- `varbuf_append_strs` -/
def appendStrs (s : VbState) : List Bytes → VbResult
  | [] => .ok s
  | str :: strs =>
      match s.append heap (cstr str) with
      | .error f => .error f
      | .ok s' => if s'.error.isSome then .ok s' else s'.appendStrs strs

/-- What `varbuf_read_line` leaves: the buffer, the answers that it did not come to, whether it has returned, and what
is in `*new`. -/
structure LineResult where
  s : VbState
  left : List ReadAnswer
  returned : Bool
  new : Nat

/-- A byte that is no CR is appended, behind the CR that was held back unless it ends the line. -/
def passByte (s : VbState) (wasCR : Bool) (c : UInt8) : VbResult :=
  match if c ≠ 10 ∧ wasCR = true then s.append heap [13] else .ok s with
  | .error f => .error f
  | .ok s => if s.error.isSome then .ok s else s.append heap [c]

/-- The loop of `varbuf_read_line`. -/
def readLineLoop (maxlen prevUsed new : Nat) : Bool → List ReadAnswer → VbState → Except VarbufFault LineResult
  | _, [], s =>
      -- it has returned, or waits for an answer
      .ok ⟨s, [], s.error.isSome || decide (maxlen ≤ s.vb.used - prevUsed), new⟩
  | wasCR, answer :: answers, s =>
      if s.error.isSome ∨ maxlen ≤ s.vb.used - prevUsed then .ok ⟨s, answer :: answers, true, new⟩
      else
        match answer with
        | .failed errno =>
            if retryable errno then readLineLoop maxlen prevUsed new wasCR answers s
            else
              readLineLoop maxlen prevUsed new wasCR answers
                { s with error := some (.push errno (ascii "Cannot pth_read")) }
        | .eof =>
            readLineLoop maxlen prevUsed new wasCR answers
              { s with error := some (.push ENOENT (ascii "End of file")) }
        | .byte c =>
            -- held back; a CR that was held back already is lost
            if c = 13 then readLineLoop maxlen prevUsed new true answers s
            else
              match s.passByte heap wasCR c with
              | .error f => .error f
              | .ok s =>
                  if c = 10 then .ok ⟨s, answers, true, new⟩
                  else readLineLoop maxlen prevUsed new false answers s

/-- `varbuf_read_line` -/
def readLine (s : VbState) (maxlen : Nat) (answers : List ReadAnswer) : Except VarbufFault LineResult :=
  s.readLineLoop heap maxlen s.vb.used (s.vb.buf + s.vb.used) false answers

end Growing

end VbState

/-! ## Well formed buffers -/

/-- The block is as large as it is said to be, and the content leaves a byte of it. -/
structure Varbuf.Sized (vb : Varbuf) : Prop where
  allocated : vb.mem.length = vb.actual
  size : vb.actual < 2 ^ 64
  used_lt : vb.used < vb.actual

/-- The byte that is left is the NUL. -/
structure Varbuf.Rep (vb : Varbuf) : Prop extends vb.Sized where
  nul : vb.mem[vb.used]? = some 0

/-- A buffer is well formed from the constructor on if there was a NUL in the block already. -/
theorem rep_ctor_iff (block : Block) {initSize : Nat} (hinit : initSize < 2 ^ 64) (relocatable : Bool) :
    (varbufCtor block initSize relocatable).vb.Rep ↔ initSize + 1 < 2 ^ 64 ∧ block.fill 0 = 0 := by
  have hlen : ∀ n, (block.bytes 0 n).length = n := by
    intro n
    rw [Block.bytes, List.length_map, List.length_range']
  have hfirst : ∀ n, 0 < n → (block.bytes 0 n)[0]? = some (block.fill 0) := by
    intro n hn
    rw [Block.bytes, List.getElem?_map, List.getElem?_range' hn]
    rfl
  constructor
  · rintro ⟨⟨-, -, hlt⟩, hnul⟩
    have hpos : 0 < addSize initSize 1 := hlt
    have hzero : (block.bytes 0 (addSize initSize 1))[0]? = some 0 := hnul
    rw [hfirst _ hpos] at hzero
    unfold addSize at hpos
    exact ⟨by omega, Option.some.inj hzero⟩
  · rintro ⟨hsize, hzero⟩
    have hactual : addSize initSize 1 = initSize + 1 := Nat.mod_eq_of_lt hsize
    refine ⟨⟨hlen _, Nat.mod_lt _ (by decide), ?_⟩, ?_⟩
    · exact (hactual ▸ Nat.succ_pos _ : 0 < addSize initSize 1)
    · have hget := hfirst (addSize initSize 1) (hactual ▸ Nat.succ_pos _)
      rw [hzero] at hget
      exact hget

namespace VbState

section Growing

variable {heap : Nat → Block} {s : VbState}

/-- There is room for some bytes and the NUL, or `varbuf_make_room` is called and can give it. -/
def PutFits (heap : Nat → Block) (s : VbState) (size : Nat) : Prop :=
  s.vb.used + size < s.vb.actual ∨
    (s.vb.actual < s.vb.used + size ∧
      s.vb.used + size + (s.vb.used + size - s.vb.actual + 1) / 2 + 1 < 2 ^ 64 ∧
      (s.vb.relocatable = true ∨ (heap s.nbReallocs).addr = s.vb.buf))

/-- From `s` to `s'` the buffer got more content, where it has room without being moved. -/
structure Extends (s s' : VbState) (size : Nat) : Prop where
  rep : s'.vb.Rep
  error : s'.error = none
  used : s'.vb.used = s.vb.used + size
  kept : s'.vb.mem.take s.vb.used = s.vb.content
  relocatable : s'.vb.relocatable = s.vb.relocatable
  stays : s.vb.used + size < s.vb.actual → s'.vb.buf = s.vb.buf ∧ s'.vb.actual = s.vb.actual
  grown : s.vb.actual < s.vb.used + size →
    s'.vb.actual = s.vb.used + size + (s.vb.used + size - s.vb.actual + 1) / 2 + 1

theorem length_content (hrep : s.vb.Sized) : s.vb.content.length = s.vb.used := by
  rw [Varbuf.content, List.length_take, hrep.allocated, Nat.min_eq_left hrep.used_lt.le]

theorem store_ok {pos : Nat} {bytes : Bytes} (h : pos + bytes.length ≤ s.vb.mem.length) :
    s.store pos bytes = .ok { s with vb := { s.vb with mem := overwrite 0 s.vb.mem pos bytes } } :=
  if_pos h

/-- The NUL is written in a block that has a byte for it. -/
theorem nulterm_spec (halloc : s.vb.mem.length = s.vb.actual) (hsize : s.vb.actual < 2 ^ 64)
    (hlt : s.vb.used < s.vb.actual) :
    ∃ mem, s.nulterm = .ok { s with vb := { s.vb with mem := mem } } ∧ ({ s.vb with mem := mem } : Varbuf).Rep ∧
      ∀ n ≤ s.vb.used, mem.take n = s.vb.mem.take n := by
  have hin : s.vb.used + [(0 : UInt8)].length ≤ s.vb.mem.length := by
    rw [halloc]
    exact hlt
  refine ⟨overwrite 0 s.vb.mem s.vb.used [0], store_ok hin, ⟨⟨?_, hsize, hlt⟩, ?_⟩, fun n hn => ?_⟩
  · rw [length_overwrite, Nat.max_eq_left hin, halloc]
  · exact getElem?_overwrite_add 0 s.vb.mem [0] s.vb.used Nat.one_pos
  · exact take_overwrite_of_le 0 s.vb.mem [0] hn (by omega)

/-- A larger block, with what was in the other one. -/
theorem makeRoom_spec {newSize : Nat} (halloc : s.vb.mem.length = s.vb.actual) (herror : s.error = none)
    (hlarger : s.vb.actual ≤ newSize) (hsize : newSize + 1 < 2 ^ 64)
    (hmoves : s.vb.relocatable = true ∨ (heap s.nbReallocs).addr = s.vb.buf) :
    ∃ s', s.makeRoom heap newSize = s' ∧ s'.error = none ∧ s'.vb.used = s.vb.used ∧ s'.vb.actual = newSize + 1 ∧
      s'.vb.mem.length = newSize + 1 ∧ s'.vb.relocatable = s.vb.relocatable ∧
      ∀ n ≤ s.vb.actual, s'.vb.mem.take n = s.vb.mem.take n := by
  have hnew : addSize newSize 1 = newSize + 1 := Nat.mod_eq_of_lt hsize
  have hmoved : ¬ ((heap s.nbReallocs).addr ≠ s.vb.buf ∧ s.vb.relocatable = false) := by
    rintro ⟨hne, hfalse⟩
    rcases hmoves with htrue | haddr
    · rw [hfalse] at htrue
      cases htrue
    · exact hne haddr
  have hroom : s.makeRoom heap newSize =
      { vb := ⟨s.vb.used, newSize + 1, s.vb.relocatable, (heap s.nbReallocs).addr,
          s.vb.mem ++ (heap s.nbReallocs).bytes s.vb.mem.length (newSize + 1 - s.vb.mem.length)⟩
        nbReallocs := s.nbReallocs + 1
        error := s.error } := by
    unfold makeRoom
    simp only [hnew, if_neg (show ¬ s.vb.actual ≥ newSize + 1 by omega), if_neg hmoved]
  refine ⟨_, hroom, herror, rfl, rfl, ?_, rfl, fun n hn => ?_⟩
  · rw [List.length_append, Block.bytes, List.length_map, List.length_range']
    omega
  · exact List.take_append_of_le_length (by omega)

/-- A buffer that grows keeps what is in it. -/
theorem put_spec {size : Nat} (hrep : s.vb.Sized) (herror : s.error = none) (hfits : PutFits heap s size) :
    ∃ s', s.put heap size = .ok s' ∧ Extends s s' size := by
  have hsize := hrep.size
  have hlt := hrep.used_lt
  unfold put
  rcases hfits with hroom | ⟨hpast, hgrown, hmoves⟩
  · have hsum : addSize s.vb.used size = s.vb.used + size := Nat.mod_eq_of_lt (by omega)
    rw [hsum, if_neg (by omega)]
    rcases @nulterm_spec (s.setUsed (s.vb.used + size)) hrep.allocated hsize hroom with ⟨mem, hnul, hrep', hkept⟩
    exact ⟨_, hnul, hrep', herror, rfl, hkept _ (Nat.le_add_right _ _), rfl, fun _ => ⟨rfl, rfl⟩,
      fun hpast => absurd hpast (by omega)⟩
  · -- no sum wraps, and the new block is larger than what is put
    have hsum : addSize s.vb.used size = s.vb.used + size := Nat.mod_eq_of_lt (by omega)
    have hinc : addSize s.vb.actual (s.vb.used + size - s.vb.actual) = s.vb.used + size := by
      rw [addSize, Nat.mod_eq_of_lt (by omega)]
      omega
    have hhalf : addSize (s.vb.used + size - s.vb.actual) 1 = s.vb.used + size - s.vb.actual + 1 :=
      Nat.mod_eq_of_lt (by omega)
    have hasked : addSize (s.vb.used + size) ((s.vb.used + size - s.vb.actual + 1) / 2) =
        s.vb.used + size + (s.vb.used + size - s.vb.actual + 1) / 2 := Nat.mod_eq_of_lt (by omega)
    rcases @makeRoom_spec heap s (s.vb.used + size + (s.vb.used + size - s.vb.actual + 1) / 2) hrep.allocated herror
      (by omega) hgrown hmoves with ⟨s₁, heq, herror₁, hused, hactual, hmem, hrelocatable, hkept₁⟩
    rcases @nulterm_spec (s₁.setUsed (s.vb.used + size)) (hmem.trans hactual.symm) (hactual.trans_lt hgrown)
      (by rw [setUsed]; simp only [hactual]; omega) with ⟨mem, hnul, hrep', hkept⟩
    simp only [hsum, if_pos hpast, hinc, hhalf, hasked, heq, hused, herror₁, Option.isSome_none, Bool.false_eq_true,
      if_false]
    refine ⟨_, hnul, hrep', herror₁, rfl, ?_, hrelocatable, fun hroom => absurd hroom (by omega), fun _ => hactual⟩
    have hfirst := hkept s.vb.used (Nat.le_add_right _ _)
    exact hfirst.trans (hkept₁ _ hlt.le)

/-- What is appended comes behind the content. -/
theorem append_spec {buf : Bytes} (hrep : s.vb.Sized) (herror : s.error = none) (hfits : PutFits heap s buf.length) :
    ∃ s', s.append heap buf = .ok s' ∧ Extends s s' buf.length ∧ s'.vb.content = s.vb.content ++ buf := by
  rcases put_spec hrep herror hfits with ⟨s₁, hput, hext⟩
  have hlt := hext.rep.used_lt
  have hused := hext.used
  have hin : s.vb.used + buf.length ≤ s₁.vb.mem.length := by
    rw [hext.rep.allocated]
    omega
  have hbefore : s.vb.used ≤ s₁.vb.mem.length := Nat.le_trans (Nat.le_add_right _ _) hin
  unfold append
  simp only [hput, hext.error, Option.isSome_none, Bool.false_eq_true, if_false, store_ok hin]
  refine ⟨_, rfl, ⟨⟨⟨?_, hext.rep.size, hlt⟩, ?_⟩, rfl, hused, ?_, hext.relocatable, hext.stays, hext.grown⟩, ?_⟩
  · rw [length_overwrite, Nat.max_eq_left hin, hext.rep.allocated]
  · -- the NUL is behind the bytes that are copied
    rw [getElem?_overwrite_of_lt 0 _ _ (by rw [hext.rep.allocated]; exact hlt) (.inr hused.ge)]
    exact hext.rep.nul
  · rw [take_overwrite_of_le 0 _ _ (Nat.le_refl _) hbefore]
    exact hext.kept
  · have htake := take_overwrite 0 s₁.vb.mem buf s.vb.used
    rw [Nat.sub_eq_zero_of_le hbefore, List.replicate_zero, List.append_nil, hext.kept] at htake
    rw [Varbuf.content]
    simp only [hused]
    exact htake

/-- An exact fit is not seen: the NUL is written behind the block. -/
theorem append_exact {buf : Bytes} (hrep : s.vb.Sized) (hexact : s.vb.used + buf.length = s.vb.actual) :
    s.append heap buf = .error .outOfBounds := by
  have hsum : addSize s.vb.used buf.length = s.vb.used + buf.length := by
    rw [addSize, hexact, Nat.mod_eq_of_lt hrep.size]
  have hout : ¬ s.vb.used + buf.length + [(0 : UInt8)].length ≤ s.vb.mem.length := by
    rw [hexact, hrep.allocated]
    exact Nat.not_succ_le_self _
  have hnul : (s.setUsed (s.vb.used + buf.length)).nulterm = .error .outOfBounds := if_neg hout
  unfold append put
  rw [hsum, if_neg (by omega), hnul]

/-! ## Reading a line -/

/-- From `s` to `s'` some bytes were appended in the room that there was. -/
structure Appended (s s' : VbState) (bytes : Bytes) : Prop where
  rep : s'.vb.Rep
  content : s'.vb.content = s.vb.content ++ bytes
  used : s'.vb.used = s.vb.used + bytes.length
  buf : s'.vb.buf = s.vb.buf
  actual : s'.vb.actual = s.vb.actual
  relocatable : s'.vb.relocatable = s.vb.relocatable

theorem Appended.refl (hrep : s.vb.Rep) : Appended s s [] :=
  ⟨hrep, (List.append_nil _).symm, rfl, rfl, rfl, rfl⟩

theorem Appended.trans {s' s'' : VbState} {a b : Bytes} (ha : Appended s s' a) (hb : Appended s' s'' b) :
    Appended s s'' (a ++ b) where
  rep := hb.rep
  content := by rw [hb.content, ha.content, List.append_assoc]
  used := by rw [hb.used, ha.used, List.length_append, Nat.add_assoc]
  buf := hb.buf.trans ha.buf
  actual := hb.actual.trans ha.actual
  relocatable := hb.relocatable.trans ha.relocatable

theorem append_room {buf : Bytes} (hrep : s.vb.Sized) (herror : s.error = none)
    (hroom : s.vb.used + buf.length < s.vb.actual) :
    ∃ s', s.append heap buf = .ok s' ∧ s'.error = none ∧ Appended s s' buf := by
  rcases @append_spec heap s buf hrep herror (.inl hroom) with ⟨s', happend, hext, hcontent⟩
  have hstays := hext.stays hroom
  exact ⟨s', happend, hext.error, hext.rep, hcontent, hext.used, hstays.1, hstays.2, hext.relocatable⟩

/-- The bytes that `readLineLoop` makes of one that is no CR. -/
def passed (wasCR : Bool) (c : UInt8) : Bytes :=
  if c ≠ 10 ∧ wasCR = true then [13, c] else [c]

theorem passByte_spec {wasCR : Bool} {c : UInt8} (hrep : s.vb.Rep) (herror : s.error = none)
    (hroom : s.vb.used + (passed wasCR c).length < s.vb.actual) :
    ∃ s', s.passByte heap wasCR c = .ok s' ∧ s'.error = none ∧ Appended s s' (passed wasCR c) := by
  unfold passByte passed at *
  by_cases hcr : c ≠ 10 ∧ wasCR = true
  · rw [if_pos hcr] at hroom ⊢
    rw [if_pos hcr]
    have htwo : s.vb.used + 2 < s.vb.actual := hroom
    rcases @append_room heap s [13] hrep.toSized herror (Nat.lt_of_succ_lt htwo) with ⟨s₁, happend, herror₁, hs₁⟩
    rcases @append_room heap s₁ [c] hs₁.rep.toSized herror₁ (by rw [hs₁.used, hs₁.actual]; exact htwo)
      with ⟨s', happend', herror', hs'⟩
    rw [happend]
    simp only [herror₁, Option.isSome_none, Bool.false_eq_true, if_false]
    exact ⟨s', happend', herror', hs₁.trans hs'⟩
  · rw [if_neg hcr] at hroom ⊢
    rw [if_neg hcr]
    simp only [herror, Option.isSome_none, Bool.false_eq_true, if_false]
    exact append_room hrep.toSized herror hroom

/-- The bytes that come before the end of the file, or an error that is not tried again. -/
def streamOf : List ReadAnswer → Bytes
  | [] => []
  | .byte c :: answers => c :: streamOf answers
  | .eof :: _ => []
  | .failed errno :: answers => if retryable errno then streamOf answers else []

/-- The line, cut after `left` bytes, fits in the `room` that is left. -/
def RoomForLine : Nat → Nat → Bool → Bytes → Prop
  | _, _, _, [] => True
  | room, left, wasCR, c :: rest =>
      left = 0 ∨
        if c = 13 then RoomForLine room left true rest
        else (passed wasCR c).length ≤ room ∧
          (c = 10 ∨ RoomForLine (room - (passed wasCR c).length) (left - (passed wasCR c).length) false rest)

/-- Nothing is read once the line is long enough. -/
theorem readLineLoop_full {maxlen n : Nat} (h : maxlen ≤ n) (wasCR : Bool) (bytes : Bytes) :
    Scambio.readLineLoop maxlen n wasCR bytes = ⟨[], bytes, false⟩ := by
  have hlt : ¬ n < maxlen := Nat.not_lt.2 h
  cases bytes with
  | nil => rw [Scambio.readLineLoop, decide_eq_false hlt]
  | cons c bytes => rw [Scambio.readLineLoop, if_neg hlt]

theorem readLineLoop_error (maxlen prevUsed new : Nat) (wasCR : Bool) (answers : List ReadAnswer) (e : Err) :
    ({ s with error := some e } : VbState).readLineLoop heap maxlen prevUsed new wasCR answers =
      .ok ⟨{ s with error := some e }, answers, true, new⟩ := by
  cases answers with
  | nil => rfl
  | cons answer answers =>
      unfold VbState.readLineLoop
      exact if_pos (.inl rfl)

/-- In the room that is left the line is read as `Commons.Varbuf` says. -/
theorem readLineLoop_spec {maxlen prevUsed new : Nat} {wasCR : Bool} {answers : List ReadAnswer}
    (hrep : s.vb.Rep) (herror : s.error = none) (hprev : prevUsed ≤ s.vb.used)
    (hroom : RoomForLine (s.vb.actual - 1 - s.vb.used) (maxlen - (s.vb.used - prevUsed)) wasCR (streamOf answers)) :
    ∃ r, s.readLineLoop heap maxlen prevUsed new wasCR answers = .ok r ∧ r.new = new ∧
      Appended s r.s (Scambio.readLineLoop maxlen (s.vb.used - prevUsed) wasCR (streamOf answers)).line ∧
      (r.returned = true → r.s.error = none →
        (Scambio.readLineLoop maxlen (s.vb.used - prevUsed) wasCR (streamOf answers)).eof = false ∧
        (Scambio.readLineLoop maxlen (s.vb.used - prevUsed) wasCR (streamOf answers)).rest = streamOf r.left) := by
  induction answers generalizing s wasCR with
  | nil =>
      refine ⟨_, rfl, rfl, Appended.refl hrep, fun hreturned _ => ⟨?_, rfl⟩⟩
      simp only [herror, Option.isSome_none, Bool.false_or, decide_eq_true_eq] at hreturned
      exact decide_eq_false (Nat.not_lt.2 hreturned)
  | cons answer answers ih =>
      unfold VbState.readLineLoop
      by_cases hfull : maxlen ≤ s.vb.used - prevUsed
      · rw [if_pos (.inr hfull), readLineLoop_full hfull]
        exact ⟨_, rfl, rfl, Appended.refl hrep, fun _ _ => ⟨rfl, rfl⟩⟩
      · have hgo : ¬ (s.error.isSome = true ∨ maxlen ≤ s.vb.used - prevUsed) := by
          rw [herror]
          exact fun h => h.elim Bool.false_ne_true hfull
        rw [if_neg hgo]
        cases answer with
        | failed errno =>
            by_cases hretry : retryable errno = true
            -- the answers are those of `streamOf`, which tries again as well
            · simp only [hretry, if_true, streamOf] at hroom ⊢
              exact ih hrep herror hprev hroom
            · simp only [hretry, Bool.false_eq_true, if_false, streamOf, readLineLoop_error]
              exact ⟨_, rfl, rfl, ⟨hrep, (List.append_nil _).symm, rfl, rfl, rfl, rfl⟩, fun _ h => by cases h⟩
        | eof =>
            simp only [streamOf, readLineLoop_error]
            exact ⟨_, rfl, rfl, ⟨hrep, (List.append_nil _).symm, rfl, rfl, rfl, rfl⟩, fun _ h => by cases h⟩
        | byte c =>
            have hn : s.vb.used - prevUsed < maxlen := Nat.not_le.1 hfull
            have hleft : ¬ maxlen - (s.vb.used - prevUsed) = 0 := by omega
            simp only [streamOf, RoomForLine, hleft, false_or] at hroom
            by_cases hcr : c = 13
            · rw [if_pos hcr] at hroom
              simp only [streamOf, Scambio.readLineLoop, if_pos hn, if_pos hcr]
              exact ih hrep herror hprev hroom
            · rw [if_neg hcr] at hroom
              have hlt := hrep.used_lt
              rcases @passByte_spec heap s wasCR c hrep herror (by omega) with ⟨s', hpass, herror', hs'⟩
              simp only [streamOf, Scambio.readLineLoop, if_pos hn, if_neg hcr, hpass]
              by_cases hlf : c = 10
              · simp only [if_pos hlf]
                exact ⟨_, rfl, rfl, hs', fun _ _ => ⟨trivial, rfl⟩⟩
              · simp only [if_neg hlf]
                have hused := hs'.used
                -- the other loop counts the bytes of the line, this one those of the buffer
                have hcount : s'.vb.used - prevUsed = s.vb.used - prevUsed + (passed wasCR c).length := by omega
                have hrest : RoomForLine (s'.vb.actual - 1 - s'.vb.used) (maxlen - (s'.vb.used - prevUsed)) false
                    (streamOf answers) := by
                  rw [hcount, hs'.actual, hused, Nat.sub_add_eq, Nat.sub_add_eq]
                  exact hroom.2.resolve_left hlf
                rcases @ih s' false hs'.rep herror' (by omega) hrest with ⟨r, hr, hnew, happended, hend⟩
                rw [hcount] at happended hend
                exact ⟨r, hr, hnew, hs'.trans happended, hend⟩

/-! ## Strings, one after the other -/

/-- Each string fits when it comes. -/
def StrsFit (heap : Nat → Block) : VbState → List Bytes → Prop
  | _, [] => True
  | s, str :: strs =>
      PutFits heap s (cstr str).length ∧ ∀ s', s.append heap (cstr str) = .ok s' → StrsFit heap s' strs

theorem appendStrs_spec {strs : List Bytes} (hrep : s.vb.Rep) (herror : s.error = none)
    (hfits : StrsFit heap s strs) :
    ∃ s', s.appendStrs heap strs = .ok s' ∧ s'.vb.Rep ∧
      s'.vb.content = s.vb.content ++ (strs.map cstr).flatten := by
  induction strs generalizing s with
  | nil => exact ⟨s, rfl, hrep, (List.append_nil _).symm⟩
  | cons str strs ih =>
      rcases append_spec hrep.toSized herror hfits.1 with ⟨s₁, happend, hext, hcontent⟩
      rcases ih hext.rep hext.error (hfits.2 s₁ happend) with ⟨s', hstrs, hrep', hcontent'⟩
      rw [appendStrs, happend]
      simp only [hext.error, Option.isSome_none, Bool.false_eq_true, if_false]
      refine ⟨s', hstrs, hrep', ?_⟩
      rw [hcontent', hcontent, List.map_cons, List.flatten_cons, List.append_assoc]

/-- In a buffer that may move, and that is far from the largest one, all strings are appended, or else one of them fills
the block. -/
theorem appendStrs_fills {strs : List Bytes} (hrep : s.vb.Sized) (herror : s.error = none)
    (hmoves : s.vb.relocatable = true) (hsmall : 2 * (s.vb.used + (strs.map cstr).flatten.length) + 4 < 2 ^ 64) :
    if fillsBlock s.vb.actual s.vb.used (strs.map fun str => (cstr str).length) = true then
      s.appendStrs heap strs = .error .outOfBounds
    else ∃ s', s.appendStrs heap strs = .ok s' ∧ s'.vb.content = s.vb.content ++ (strs.map cstr).flatten := by
  induction strs generalizing s with
  | nil => exact ⟨s, rfl, (List.append_nil _).symm⟩
  | cons str strs ih =>
      have hlt := hrep.used_lt
      rw [List.map_cons, List.flatten_cons, List.length_append] at hsmall
      -- what comes of the strings behind this one, in the block that it leaves
      have hnext : ∀ actual, PutFits heap s (cstr str).length →
          (∀ s', Extends s s' (cstr str).length → s'.vb.actual = actual) →
          if fillsBlock actual (s.vb.used + (cstr str).length) (strs.map fun str => (cstr str).length) = true then
            s.appendStrs heap (str :: strs) = .error .outOfBounds
          else ∃ s', s.appendStrs heap (str :: strs) = .ok s' ∧
            s'.vb.content = s.vb.content ++ ((str :: strs).map cstr).flatten := by
        intro actual hfits hactual
        rcases append_spec hrep herror hfits with ⟨s', happend, hext, hcontent⟩
        have hs' := @ih s' hext.rep.toSized hext.error (hext.relocatable.trans hmoves) (by rw [hext.used]; omega)
        rw [hactual s' hext, hext.used, hcontent, List.append_assoc] at hs'
        simp only [appendStrs, happend, hext.error, Option.isSome_none, Bool.false_eq_true, if_false]
        exact hs'
      rw [List.map_cons, fillsBlock]
      by_cases hpast : s.vb.actual < s.vb.used + (cstr str).length
      · rw [if_pos hpast]
        exact hnext _ (.inr ⟨hpast, by omega, .inl hmoves⟩) fun s' hext => hext.grown hpast
      · rw [if_neg hpast]
        by_cases hfull : s.vb.used + (cstr str).length = s.vb.actual
        · simp only [if_pos hfull, if_true, appendStrs, append_exact hrep hfull]
        · rw [if_neg hfull]
          have hroom : s.vb.used + (cstr str).length < s.vb.actual := by omega
          exact hnext _ (.inl hroom) fun s' hext => (hext.stays hroom).2

/-! ## Shrinking -/

/-- A buffer with a new end inside its content. -/
theorem setUsed_spec {used : Nat} (hrep : s.vb.Rep) (hle : used ≤ s.vb.used) :
    ∃ s', (s.setUsed used).nulterm = .ok s' ∧ s'.vb.Rep ∧ s'.vb.content = s.vb.content.take used := by
  have hlt := hrep.used_lt
  rcases @nulterm_spec (s.setUsed used) hrep.allocated hrep.size (Nat.lt_of_le_of_lt hle hlt) with ⟨mem, hnul, hrep', hkept⟩
  refine ⟨_, hnul, hrep', ?_⟩
  rw [Varbuf.content, Varbuf.content, List.take_take, Nat.min_eq_left hle]
  exact hkept used (Nat.le_refl _)

end Growing

end VbState

/-! ## Runs -/

inductive VarbufOp
  | append (buf : Bytes)
  | appendStrs (strs : List Bytes)
  | put (size : Nat)
  | chop (size : Nat)
  | cut (newEnd : Nat)
  | clean
  | readLine (maxlen : Nat) (answers : List ReadAnswer)

namespace VbState

section Runs

variable (heap : Nat → Block)

/-- A call, by a caller who dealt with the error of the last one. -/
def step (s : VbState) (op : VarbufOp) : VbResult :=
  let s := { s with error := none }
  match op with
  | .append buf => s.append heap buf
  | .appendStrs strs => s.appendStrs heap strs
  | .put size => s.put heap size
  | .chop size => s.chop size
  | .cut newEnd => s.cut newEnd
  | .clean => s.clean
  | .readLine maxlen answers => (s.readLine heap maxlen answers).map LineResult.s

/-- The content that an operation makes of another. -/
def Describes (vb : Varbuf) (op : VarbufOp) (content : Bytes) : Prop :=
  match op with
  | .append buf => content = vb.content ++ buf
  | .appendStrs strs => content = vb.content ++ (strs.map cstr).flatten
  | .put size => ∃ bytes, bytes.length = size ∧ content = vb.content ++ bytes
  | .chop size => content = vb.content.take (vb.used - size)
  | .cut newEnd => content = vb.content.take (newEnd - vb.buf)
  | .clean => content = []
  | .readLine maxlen answers => content = vb.content ++ (varbufReadLine maxlen (streamOf answers)).line

/-- The arguments meet the assertions, and what is added does not fill the block exactly. -/
def OpFits (s : VbState) (op : VarbufOp) : Prop :=
  match op with
  | .append buf => PutFits heap s buf.length
  | .appendStrs strs => StrsFit heap { s with error := none } strs
  | .put size => PutFits heap s size
  | .chop size => size < s.vb.used
  | .cut newEnd => s.vb.buf ≤ newEnd ∧ newEnd ≤ s.vb.buf + s.vb.used
  | .clean => True
  | .readLine maxlen answers => RoomForLine (s.vb.actual - 1 - s.vb.used) maxlen false (streamOf answers)

/-- Every operation of the run fits where it is called. -/
def RunFits : VbState → List VarbufOp → Prop
  | _, [] => True
  | s, op :: ops => OpFits heap s op ∧ ∀ s', s.step heap op = .ok s' → RunFits s' ops

/-- All buffers of the run are well formed, no byte is written outside of a block, and the contents are those that the
operations describe. -/
def Holds : VbState → List VarbufOp → Prop
  | s, [] => s.vb.Rep
  | s, op :: ops =>
      s.vb.Rep ∧ ∃ s', s.step heap op = .ok s' ∧ Describes s.vb op s'.vb.content ∧ Holds s' ops

theorem step_spec {s : VbState} {op : VarbufOp} (hrep : s.vb.Rep) (hfits : OpFits heap s op) :
    ∃ s', s.step heap op = .ok s' ∧ s'.vb.Rep ∧ Describes s.vb op s'.vb.content := by
  -- the caller has cleared the error
  obtain ⟨s₀, hs₀⟩ : ∃ s₀ : VbState, s₀ = { s with error := none } := ⟨_, rfl⟩
  have hrep₀ : s₀.vb.Rep := hs₀ ▸ hrep
  have herror₀ : s₀.error = none := hs₀ ▸ rfl
  have hvb : s.vb = s₀.vb := hs₀ ▸ rfl
  have hput : ∀ {size}, PutFits heap s size → PutFits heap s₀ size := fun h => hs₀ ▸ h
  unfold step
  rw [← hs₀, hvb]
  cases op with
  | append buf =>
      rcases VbState.append_spec hrep₀.toSized herror₀ (hput hfits) with ⟨s', heq, hext, hcontent⟩
      exact ⟨s', heq, hext.rep, hcontent⟩
  | appendStrs strs =>
      exact appendStrs_spec hrep₀ herror₀ (hs₀ ▸ hfits)
  | put size =>
      rcases put_spec hrep₀.toSized herror₀ (hput hfits) with ⟨s', heq, hext⟩
      refine ⟨s', heq, hext.rep, (s'.vb.mem.drop s₀.vb.used).take size, ?_, ?_⟩
      · have hlt := hext.rep.used_lt
        have hused := hext.used
        rw [List.length_take, List.length_drop, hext.rep.allocated]
        omega
      · rw [Varbuf.content, hext.used, List.take_add, hext.kept]
  | chop size =>
      have hlt : size < s₀.vb.used := hvb ▸ hfits
      rcases @setUsed_spec s₀ (s₀.vb.used - size) hrep₀ (Nat.sub_le _ _) with ⟨s', heq, hrep', hcontent⟩
      refine ⟨s', ?_, hrep', hcontent⟩
      simp only [chop, if_pos hlt, heq]
  | cut newEnd =>
      have hin : s₀.vb.buf ≤ newEnd ∧ newEnd ≤ s₀.vb.buf + s₀.vb.used := hvb ▸ hfits
      rcases @setUsed_spec s₀ (newEnd - s₀.vb.buf) hrep₀ (by omega) with ⟨s', heq, hrep', hcontent⟩
      refine ⟨s', ?_, hrep', hcontent⟩
      simp only [cut, if_pos hin, heq]
  | clean => exact @setUsed_spec s₀ 0 hrep₀ (Nat.zero_le _)
  | readLine maxlen answers =>
      have hroom : RoomForLine (s₀.vb.actual - 1 - s₀.vb.used) (maxlen - (s₀.vb.used - s₀.vb.used)) false
          (streamOf answers) := by
        rw [Nat.sub_self]
        exact hvb ▸ hfits
      rcases @readLineLoop_spec heap s₀ maxlen s₀.vb.used (s₀.vb.buf + s₀.vb.used) false answers hrep₀ herror₀
        (Nat.le_refl _) hroom with ⟨r, hr, -, happended, -⟩
      rw [Nat.sub_self] at happended
      refine ⟨r.s, ?_, happended.rep, happended.content⟩
      simp only [readLine, hr]
      rfl

end Runs

end VbState

/-- In a run in which no operation fills the block exactly, from a block that starts with a NUL, nothing goes wrong. -/
theorem holds_of_fits (heap : Nat → Block) (block : Block) (initSize : Nat) (relocatable : Bool) (ops : List VarbufOp)
    (hinit : initSize + 1 < 2 ^ 64) (hzero : block.fill 0 = 0)
    (hfits : VbState.RunFits heap (varbufCtor block initSize relocatable) ops) :
    VbState.Holds heap (varbufCtor block initSize relocatable) ops := by
  have hrep := (rep_ctor_iff block (Nat.lt_of_succ_lt hinit) relocatable).2 ⟨hinit, hzero⟩
  -- a well formed buffer is all that is known of the state from here on
  generalize varbufCtor block initSize relocatable = s at hrep hfits
  induction ops generalizing s with
  | nil => exact hrep
  | cons op ops ih =>
      rcases VbState.step_spec heap hrep hfits.1 with ⟨s', hstep, hrep', hdescribes⟩
      exact ⟨hrep, s', hstep, hdescribes, ih s' hrep' (hfits.2 s' hstep)⟩

/-- A block of zeros, and `malloc` that gives no other. -/
def zeros : Block :=
  ⟨4096, fun _ => 0⟩

theorem holds_of_fits_cleaned :
    VbState.Holds (fun _ => zeros) (varbufCtor zeros 8 true) [.append (ascii "ab"), .clean] :=
  holds_of_fits (fun _ => zeros) zeros 8 true [.append (ascii "ab"), .clean] (by decide) rfl
    ⟨.inl (by decide), fun _ _ => ⟨trivial, fun _ _ => trivial⟩⟩

/-- One byte fills a buffer of one byte: the NUL goes behind it.  And in a block that was used before, a new buffer is
no string. -/
theorem not_holds_exactFit :
    (varbufCtor zeros 0 true).step (fun _ => zeros) (.append [97]) = .error .outOfBounds ∧
      ¬ (varbufCtor ⟨4096, fun _ => 97⟩ 8 true).vb.Rep ∧
      ¬ ∀ (heap : Nat → Block) (block : Block) (initSize : Nat) (buf : Bytes),
        VbState.Holds heap (varbufCtor block initSize true) [.append buf] := by
  have hexact : (varbufCtor zeros 0 true).step (fun _ => zeros) (.append [97]) = .error .outOfBounds := by
    decide
  refine ⟨hexact, fun hrep => ?_, fun hall => ?_⟩
  · have hfirst := ((rep_ctor_iff ⟨4096, fun _ => 97⟩ (by decide) true).1 hrep).2
    revert hfirst
    decide
  · rcases hall (fun _ => zeros) zeros 0 [97] with ⟨-, s', hstep, -⟩
    rw [hexact] at hstep
    cases hstep

end Scambio
