import Scambio.Commons.PositionalIO
import Scambio.Lib.FileTransfer
import Scambio.Lib.JoinedFragments

/-!
# LossyTransfer — a file over a network that loses, repeats and reorders (`lib/channel.c`, `lib/stream.c`)

The chunks that `stream_push` has sent can reach the receiver in any order, any number of times or never, and a call
of `serve_copy` can fail anywhere; but `WriteTo` writes nothing behind a short `pwrite` (it would come to the same
place).  Each chunk tells of the file what it holds (`PieceOf`), so that what is written
twice is written alike, and the end of file cuts nothing off.  The fragments hold all that was registered, and become
one as soon as there is no hole.

* `streamWriteIo`      : `stream_write` with the answers of the system;
* `TransferStep`       : what can happen;
* `TransferStep.inv`   : what it keeps;
* `lossy_transfer`     : the receiver thanks when all has come, and has the file then.
-/

namespace Scambio

open Library

/-! ## Pieces of a file -/

/-- What a chunk tells is so in the file. -/
structure PieceOf (src : Bytes) (off : Nat) (data : Bytes) (eof : Bool) : Prop where
  fits : off + data.length ≤ src.length
  bytes : ∀ i < data.length, src[off + i]? = data[i]?
  eof : eof = true → off + data.length = src.length

namespace PieceOf

variable {src data : Bytes} {off : Nat} {eof : Bool}

/-- A block that `stream_push` reads. -/
theorem block {k : Nat} (hk : k ≤ src.length) (n : Nat) :
    PieceOf src k ((src.drop k).take n) (decide ((src.drop k).length ≤ n)) ∧
      (k + ((src.drop k).take n).length = src.length → decide ((src.drop k).length ≤ n) = true) := by
  have hdrop : (src.drop k).length = src.length - k := List.length_drop
  have htake : ((src.drop k).take n).length = min n (src.drop k).length := List.length_take
  refine ⟨⟨by omega, fun i hi => ?_, fun heof => ?_⟩, fun hend => decide_eq_true (by omega)⟩
  · rw [List.getElem?_take_of_lt (by omega), List.getElem?_drop]
  · have hall := of_decide_eq_true heof
    omega

theorem left {p rest : Bytes} (h : PieceOf src off (p ++ rest) eof) {last : Bool}
    (hlast : last = true → rest = [] ∧ eof = true) : PieceOf src off p last := by
  have hfits := h.fits
  rw [List.length_append] at hfits
  refine ⟨by omega, fun i hi => ?_, fun h' => ?_⟩
  · rw [h.bytes i (by rw [List.length_append]; omega), List.getElem?_append_left hi]
  · rcases hlast h' with ⟨rfl, heof⟩
    have hend := h.eof heof
    rwa [List.append_nil] at hend

theorem right {p rest : Bytes} (h : PieceOf src off (p ++ rest) eof) : PieceOf src (off + p.length) rest eof := by
  have hfits := h.fits
  rw [List.length_append] at hfits
  refine ⟨by omega, fun i hi => ?_, fun heof => ?_⟩
  · rw [Nat.add_assoc, h.bytes _ (by rw [List.length_append]; omega), List.getElem?_append_right (by omega),
      Nat.add_sub_cancel_left]
  · rw [← h.eof heof, List.length_append, Nat.add_assoc]

/-- What a write that fails has written. -/
theorem take (h : PieceOf src off data eof) (n : Nat) : PieceOf src off (data.take n) false := by
  rw [← List.take_append_drop n data] at h
  exact h.left fun heof => absurd heof Bool.false_ne_true

/-- The chunks of a piece; the one at the end of the file has the end of file. -/
theorem chunks (id : Int) {ps : List Bytes} (h : PieceOf src off ps.flatten eof)
    (hend : off + ps.flatten.length = src.length → eof = true) (hps : ∀ p ∈ ps.tail, p ≠ []) {chunk : Chunk}
    (hchunk : chunk ∈ chunksOf id off ps eof) :
    ∃ off data eof, chunk = chunkOf id off data eof ∧ PieceOf src off data eof ∧
      (off + data.length = src.length → eof = true) := by
  induction ps generalizing off with
  | nil => cases hchunk
  | cons p ps ih =>
      rw [List.flatten_cons] at h hend
      rcases List.mem_cons.1 hchunk with rfl | hmem
      · refine ⟨off, p, ps.isEmpty && eof, rfl, h.left fun hlast => ?_, fun hp => ?_⟩
        · rcases Bool.and_eq_true_iff.1 hlast with ⟨hempty, heof⟩
          rw [List.isEmpty_iff.1 hempty]
          exact ⟨rfl, heof⟩
        · have hfits := h.fits
          rw [List.length_append] at hfits hend
          cases ps with
          | nil => exact hend (by rw [List.flatten_nil, List.length_nil, Nat.add_zero, hp])
          | cons q ps =>
              -- there is more to come
              have hpos := List.length_pos_iff.2 (hps q List.mem_cons_self)
              rw [List.flatten_cons, List.length_append] at hfits
              omega
      · refine ih h.right ?_ (fun q hq => hps q (List.mem_of_mem_tail hq)) hmem
        rw [List.length_append, ← Nat.add_assoc] at hend
        exact hend

end PieceOf

/-! ## Writing pieces in any order -/

theorem length_ftruncate (file : Bytes) (n : Nat) : (ftruncate file n).length = n := by
  rw [ftruncate, List.length_append, List.length_take, List.length_replicate]
  omega

/-- The piece is in the file, and what was right before still is. -/
theorem getElem?_writeAt {src file data : Bytes} {off : Nat} {eof : Bool} (h : PieceOf src off data eof) {b : Nat}
    (hb : b < src.length) (hgood : (off ≤ b ∧ b < off + data.length) ∨ file[b]? = src[b]?) :
    (writeAt file off data eof)[b]? = src[b]? := by
  by_cases hin : off ≤ b ∧ b < off + data.length
  · obtain ⟨i, rfl⟩ : ∃ i, b = off + i := ⟨b - off, by omega⟩
    have hi : i < data.length := by omega
    rw [getElem?_writeAt_add eof hi, h.bytes i hi]
  · have hsrc : src[b]? = some src[b] := List.getElem?_eq_getElem hb
    rw [hsrc]
    refine getElem?_writeAt_of_eq ((hgood.resolve_left hin).trans hsrc) (fun i hi hlt => ?_) fun heof => ?_
    · exact absurd ⟨by omega, by omega⟩ hin
    · rw [h.eof heof]
      exact hb

/-- A file that has its length keeps it, and the end of file gives it. -/
theorem length_writeAt {src file data : Bytes} {off : Nat} {eof : Bool} (h : PieceOf src off data eof)
    (hgood : file.length = src.length ∨ eof = true) : (writeAt file off data eof).length = src.length := by
  unfold writeAt
  simp only
  split
  · next heof => rw [length_ftruncate, h.eof heof]
  · next heof =>
    have hfile := hgood.resolve_right heof
    have hfits := h.fits
    split
    · exact hfile
    · rw [length_overwrite]
      omega

/-! ## Steps -/

/-- A sender and a receiver of one transfer, the chunks that were sent, the file of the receiver, the commands that it
has registered, and whether it has thanked. -/
structure Transfer where
  sender : ChnTx
  sent : List Chunk
  receiver : ChnTx
  file : Bytes
  received : List Copy
  thanked : Bool

/-- A transfer that starts, over a file that may be there. -/
def Transfer.start (id : Int) (sender receiver stream : Nat) (stream' : Option Nat) (ts ts' : Nat) (file : Bytes) :
    Transfer :=
  { sender := chnTxCtor sender true id stream' ts, sent := []
    receiver := chnTxCtor receiver false id (some stream) ts', file := file, received := [], thanked := false }

/-- The command that the receiver reads in a chunk. -/
def ReadAs (server : Bool) (chunk : Chunk) (c : Copy) : Prop :=
  ∃ rest, (mdirCmdRead (chnInit server) (chunk.line ++ rest)).parse.result.toOption.bind copyOfCmd = some c

/-- `serve_copy` comes to its end: the data is written, and its fragment is checked. -/
structure CopyEnv.Registers (env : CopyEnv) : Prop where
  alloc : env.alloc = true
  read : env.read = true
  write : env.write = .ok ()
  answered : env.answered = true
  clock : env.clock ≠ none
  fragAlloc : env.fragAlloc = true

/-- `stream_write` on the file of a stream, with what the system answers to `pwrite` and to `ftruncate`: the file, and
the error if one is raised. -/
def streamWriteIo (file : Bytes) (c : Copy) (data : Bytes) (answers : List IoAnswer) (truncate : Except Nat Unit) :
    Option (Bytes × Except Err Unit) :=
  match writeTo c.offset answers file data with
  | none => none
  | some (file, some e) => some (file, .error e)
  | some (file, none) =>
      if c.eof then
        match truncate with
        | .error errno => some (file, .error (.push errno (ascii "truncate stream")))
        | .ok () =>
            if c.offset + data.length < 0 then some (file, .error (.push EINVAL (ascii "truncate stream")))
            else some (ftruncate file (c.offset + data.length).toNat, .ok ())
      else some (file, .ok ())

/-- The file that a `serve_copy` leaves, which writes once it has read the data.  A `pwrite` may be short, but then no
other follows. -/
def MayWrite (env : CopyEnv) (file : Bytes) (c : Copy) (data file' : Bytes) : Prop :=
  if env.alloc = true ∧ env.read = true then
    ∃ answers truncate, Unsplit data.length answers ∧
      streamWriteIo file c data answers truncate = some (file', env.write)
  else file' = file

/-- `check_in_frags` finds no hole before a fragment that is recent, when the command has come. -/
def Timely (tx : ChnTx) (c : Copy) (env : CopyEnv) : Prop :=
  ∀ ts, env.clock = some ts → NoHole (insertByOffset (inFrag ts c) tx.inFrags) ts

inductive TransferStep (server : Bool) (src : Bytes) (t : Transfer) : Transfer → Prop
  | push {tx : ChnTx} {chunks : List Chunk} {eof : Bool} (now : Nat) :
      streamPush src t.sender now = .ok (tx, chunks, eof) →
      TransferStep server src t { t with sender := tx, sent := t.sent ++ chunks }
  | copy {chunk : Chunk} {c : Copy} {file : Bytes} {tx : ChnTx} {answers : List ChnSent} {finished : Bool}
      (env : CopyEnv) : chunk ∈ t.sent → ReadAs server chunk c → env.Registers →
      MayWrite env t.file c chunk.data file → Timely t.receiver c env →
      serveCopyTx t.receiver c env = .ok (tx, answers, finished) →
      TransferStep server src t { t with
        receiver := tx, file := file, received := t.received ++ [c], thanked := t.thanked || finished }
  -- something fails, before or after the write
  | failed {chunk : Chunk} {c : Copy} {file : Bytes} {tx : ChnTx} {answers : List ChnSent} {finished : Bool}
      (env : CopyEnv) : chunk ∈ t.sent → ReadAs server chunk c → ¬ env.Registers →
      MayWrite env t.file c chunk.data file →
      serveCopyTx t.receiver c env = .ok (tx, answers, finished) →
      TransferStep server src t { t with receiver := tx, file := file, thanked := t.thanked || finished }
  | check (now writes : Nat) : NoHole t.receiver.inFrags now →
      TransferStep server src t { t with receiver := (checkInFrags t.receiver now writes).1 }
  | status {tx : ChnTx} (status : Int) : chnTxSetStatus t.receiver status = .ok tx →
      TransferStep server src t { t with receiver := tx }
  | acked {tx : ChnTx} (status : Int) : chnTxSetStatus t.sender status = .ok tx →
      TransferStep server src t { t with sender := tx }

inductive TransferRun (server : Bool) (src : Bytes) (start : Transfer) : Transfer → Prop
  | start : TransferRun server src start start
  | step {t t' : Transfer} : TransferRun server src start t → TransferStep server src t t' →
      TransferRun server src start t'

/-! ## What a run keeps -/

structure Transfer.Inv (id : Int) (src : Bytes) (t : Transfer) : Prop where
  sender : t.sender.id = id ∧ ∃ k ≤ src.length, t.sender.endOffset = (k : Nat)
  sent : ∀ chunk ∈ t.sent, ∃ off data eof, chunk = chunkOf id off data eof ∧ PieceOf src off data eof ∧
    (off + data.length = src.length → eof = true)
  sound : Sound t.received t.receiver.inFrags
  fits : ∀ f ∈ t.receiver.inFrags, f.Fits src.length
  within : ∀ c ∈ t.received, ∃ f ∈ t.receiver.inFrags, f.start ≤ c.offset ∧ c.endAt ≤ f.endAt
  received : ∀ c ∈ t.received, c.endAt = c.offset + c.size ∧ c.endAt ≤ src.length ∧
    (c.eof = true → c.endAt = src.length)
  bytes : ∀ b : Nat, Carried t.received b → t.file[b]? = src[b]?
  length : (∃ c ∈ t.received, c.eof = true) → t.file.length = src.length
  thanked : t.thanked = true ↔ Completed t.received

theorem Carried.append {received : List Copy} {c : Copy} {b : Int} (h : Carried (received ++ [c]) b) :
    Carried received b ∨ (c.offset ≤ b ∧ b < c.offset + c.size) := by
  rcases h with ⟨c', hc', hb⟩
  rcases List.mem_append.1 hc' with hmem | hmem
  · exact .inl ⟨c', hmem, hb⟩
  · rw [List.mem_singleton.1 hmem] at hb
    exact .inr hb

theorem Completed.mono {received : List Copy} (h : Completed received) (c : Copy) : Completed (received ++ [c]) := by
  rcases h with ⟨n, ⟨c', hc', heof⟩, hall⟩
  exact ⟨n, ⟨c', List.mem_append_left _ hc', heof⟩, fun b hlow hhigh =>
    (hall b hlow hhigh).mono (List.subset_append_left _ _)⟩

theorem serveCopyTx_registered {tx tx' : ChnTx} {c : Copy} {env : CopyEnv} {sent : List ChnSent} {finished : Bool}
    (henv : env.Registers) (h : serveCopyTx tx c env = .ok (tx', sent, finished)) :
    ∃ ts, env.clock = some ts ∧ tx' = (registerFrag tx c ts env.asks).1 ∧
      finished = ((registerFrag tx c ts env.asks).2.2 && isOver (registerFrag tx c ts env.asks).1.inFrags) := by
  rcases Option.ne_none_iff_exists'.1 henv.clock with ⟨ts, hclock⟩
  refine ⟨ts, hclock, ?_⟩
  simp only [serveCopyTx, henv.alloc, henv.read, henv.write, henv.answered, henv.fragAlloc, hclock, Bool.not_true,
    Bool.false_eq_true, if_false] at h
  split at h
  · cases h
  · cases h
    exact ⟨rfl, rfl⟩

/-- Where something fails nothing is registered. -/
theorem serveCopyTx_failed {tx tx' : ChnTx} {c : Copy} {env : CopyEnv} {sent : List ChnSent} {finished : Bool}
    (hfailed : ¬ env.Registers) (h : serveCopyTx tx c env = .ok (tx', sent, finished)) :
    tx'.inFrags = tx.inFrags ∧ finished = false := by
  unfold serveCopyTx at h
  split at h
  · cases h
    exact ⟨rfl, rfl⟩
  next halloc =>
  split at h
  · cases h
    exact ⟨rfl, rfl⟩
  next hread =>
  split at h
  · cases h
  cases hwrite : env.write with
  | error e =>
      rw [hwrite] at h
      cases hset : chnTxSetStatus tx 501 with
      | error e =>
          rw [hset] at h
          cases h
      | ok t =>
          rw [hset] at h
          cases h
          rw [(chnTxSetStatus_ok hset).2.2]
          exact ⟨rfl, rfl⟩
  | ok _ =>
      rw [hwrite] at h
      simp only at h
      split at h
      · cases h
        exact ⟨rfl, rfl⟩
      next hanswered =>
      split at h
      · cases h
        exact ⟨rfl, rfl⟩
      next ts hclock =>
      split at h
      · cases h
        exact ⟨rfl, rfl⟩
      next hfrag =>
      -- every call went well, against `hfailed`
      refine absurd ⟨?_, ?_, hwrite, ?_, ?_, ?_⟩ hfailed
      · simpa using halloc
      · simpa using hread
      · simpa using hanswered
      · rw [hclock]
        exact Option.some_ne_none _
      · simpa using hfrag

/-- What `stream_write` leaves: all of the data, or the start of it where something fails. -/
theorem streamWriteIo_writeAt {file file' data : Bytes} {c : Copy} {off : Nat} {answers : List IoAnswer}
    {truncate : Except Nat Unit} {r : Except Err Unit} (hoff : c.offset = (off : Nat))
    (hunsplit : Unsplit data.length answers)
    (h : streamWriteIo file c data answers truncate = some (file', r)) :
    ((∃ n, file' = writeAt file off (data.take n) false) ∨ file' = writeAt file off data c.eof) ∧
      (r = .ok () → file' = writeAt file off data c.eof) := by
  rw [streamWriteIo, hoff] at h
  cases hwrite : writeTo off answers file data with
  | none =>
      rw [hwrite] at h
      cases h
  | some written =>
      rcases written with ⟨file₁, _ | e⟩
      · have hall := (writeTo_unsplit hunsplit hwrite).2 rfl
        have htake : file₁ = writeAt file off (data.take data.length) false := by
          rw [List.take_length]
          exact hall
        rw [hwrite] at h
        simp only at h
        split at h
        next heof =>
          cases htrunc : truncate with
          | error errno =>
              -- the data is there, with what was behind it
              rw [htrunc] at h
              obtain ⟨rfl, rfl⟩ := Prod.mk.inj (Option.some.inj h)
              exact ⟨.inl ⟨_, htake⟩, fun hok => nomatch hok⟩
          | ok _ =>
              have hlen : ((off : Int) + (data.length : Nat)).toNat = off + data.length := by omega
              rw [htrunc] at h
              simp only [hlen] at h
              obtain ⟨rfl, -⟩ := Prod.mk.inj (Option.some.inj h)
              have heq : ftruncate file₁ (off + data.length) = writeAt file off data c.eof := by
                rw [hall, writeAt, if_pos heof]
                rfl
              exact ⟨.inr heq, fun _ => heq⟩
        next heof =>
          obtain ⟨rfl, -⟩ := Prod.mk.inj (Option.some.inj h)
          have heq : file₁ = writeAt file off data c.eof := by
            rw [hall, writeAt, if_neg heof]
            rfl
          exact ⟨.inr heq, fun _ => heq⟩
      · rcases writeTo_unsplit hunsplit hwrite with ⟨⟨n, hpart⟩, -⟩
        rw [hwrite] at h
        obtain ⟨rfl, rfl⟩ := Prod.mk.inj (Option.some.inj h)
        exact ⟨.inl ⟨n, hpart⟩, fun hok => nomatch hok⟩

/-- The file is so after a `serve_copy`, which has written all of the data when it registers it. -/
theorem mayWrite_writeAt {env : CopyEnv} {file file' data : Bytes} {c : Copy} {off : Nat} (hoff : c.offset = (off : Nat))
    (h : MayWrite env file c data file') :
    ((∃ n, file' = writeAt file off (data.take n) false) ∨ file' = writeAt file off data c.eof) ∧
      (env.Registers → file' = writeAt file off data c.eof) := by
  unfold MayWrite at h
  split at h
  next hreached =>
    rcases h with ⟨answers, truncate, hunsplit, h⟩
    rcases streamWriteIo_writeAt hoff hunsplit h with ⟨hleft, hall⟩
    exact ⟨hleft, fun henv => hall henv.write⟩
  next hreached =>
    exact ⟨.inl ⟨0, h⟩, fun henv => absurd ⟨henv.alloc, henv.read⟩ hreached⟩

/-- What the receiver reads is what was sent. -/
theorem readAs_chunkOf {server : Bool} {id : Int} (hid : -2 ^ 63 ≤ id ∧ id < 2 ^ 63) {src : Bytes}
    (hsrc : src.length < 2 ^ 32) {off : Nat} {data : Bytes} {eof : Bool} (hpiece : PieceOf src off data eof) {c : Copy}
    (h : ReadAs server (chunkOf id off data eof) c) :
    c.offset = (off : Nat) ∧ c.size = data.length ∧ c.eof = eof ∧ c.endAt = ((off + data.length : Nat) : Int) := by
  have hfits := hpiece.fits
  rcases h with ⟨rest, h⟩
  rw [(mdirCmdRead_chunk server hid off (by omega) eof rest).2] at h
  cases h
  have hoff : (copyOf id off data eof).offset = (off : Nat) := by
    have hmod : off % 2 ^ 32 = off := Nat.mod_eq_of_lt (by omega)
    exact congrArg Nat.cast hmod
  have hsize : (copyOf id off data eof).size = data.length := rfl
  refine ⟨hoff, hsize, rfl, ?_⟩
  rw [Copy.endAt, hoff, hsize, offT_of_fits (by omega) (by omega), Int.natCast_add]

section Invariant

variable {server : Bool} {id : Int} {src : Bytes} {t t' : Transfer}

theorem Transfer.inv_start (src : Bytes) (sender receiver stream : Nat) (stream' : Option Nat) (ts ts' : Nat)
    (file : Bytes) : (Transfer.start id sender receiver stream stream' ts ts' file).Inv id src where
  sender := ⟨rfl, 0, Nat.zero_le _, rfl⟩
  sent := fun _ hmem => absurd hmem List.not_mem_nil
  sound := ⟨fun _ hmem => absurd hmem List.not_mem_nil, List.Pairwise.nil⟩
  fits := fun _ hmem => absurd hmem List.not_mem_nil
  within := fun _ hmem => absurd hmem List.not_mem_nil
  received := fun _ hmem => absurd hmem List.not_mem_nil
  bytes := by
    rintro b ⟨c, hc, -⟩
    cases hc
  length := by
    rintro ⟨c, hc, -⟩
    cases hc
  thanked := by
    refine iff_of_false Bool.false_ne_true ?_
    rintro ⟨n, ⟨c, hc, -⟩, -⟩
    cases hc

/-- Bytes that came are bytes of the file. -/
theorem Transfer.Inv.lt_of_carried (h : t.Inv id src) {b : Nat} (hb : Carried t.received b) : b < src.length := by
  rcases hb with ⟨c, hc, -, hhigh⟩
  have hbound := h.received c hc
  omega

/-- A turn of `stream_push`. -/
theorem Transfer.Inv.push (h : t.Inv id src) (hsrc : src.length < 2 ^ 32) {now : Nat} {tx : ChnTx}
    {chunks : List Chunk} {eof : Bool} (hpush : streamPush src t.sender now = .ok (tx, chunks, eof)) :
    { t with sender := tx, sent := t.sent ++ chunks }.Inv id src := by
  rcases h.sender with ⟨hid, k, hk, hoff⟩
  have hlen : ((src.drop k).take STREAM_READ_BLOCK).length ≤ src.length - k := by
    rw [List.length_take, List.length_drop]
    exact Nat.min_le_right _ _
  rcases streamPush_eq hoff hk (by omega) now rfl with ⟨tx', heq, htx'⟩
  rw [heq] at hpush
  cases hpush
  have hwrite := chnTxWrite_eq hoff now ((src.drop k).take STREAM_READ_BLOCK) (by omega)
    (decide ((src.drop k).length ≤ STREAM_READ_BLOCK))
  rw [← htx'] at hwrite
  refine ⟨⟨hwrite.2.2.trans hid, _, by omega, hwrite.2.1⟩, fun chunk hmem => ?_, h.sound, h.fits, h.within, h.received,
    h.bytes, h.length, h.thanked⟩
  rcases List.mem_append.1 hmem with hmem | hmem
  · exact h.sent chunk hmem
  · have hblock := PieceOf.block hk STREAM_READ_BLOCK
    rw [← flatten_pieces CHUNK_SIZE ((src.drop k).take STREAM_READ_BLOCK)] at hblock
    rw [hid] at hmem
    exact hblock.1.chunks id hblock.2 (fun p hp => ne_nil_of_mem_tail_pieces hp) hmem

/-- A check of the fragments, of `tx_checker` or after a command. -/
theorem Transfer.Inv.check (h : t.Inv id src) (now writes : Nat) (hhole : NoHole t.receiver.inFrags now) :
    { t with receiver := (checkInFrags t.receiver now writes).1 }.Inv id src := by
  refine ⟨h.sender, h.sent, ?_, checkInFrags_fits h.fits now writes, fun c hc => ?_, h.received, h.bytes, h.length,
    h.thanked⟩
  · simp only [checkInFrags_inFrags]
    exact checkLoop_start_sound t.receiver.id writes h.sound hhole
  · rcases h.within c hc with ⟨f, hf, hstart, hend⟩
    rcases checkInFrags_within h.sound.ordered now writes hf with ⟨g, hg, hgstart, hgend⟩
    exact ⟨g, hg, hgstart.trans hstart, hend.trans hgend⟩

/-- A command that is registered. -/
theorem Transfer.Inv.copy (h : t.Inv id src) (hid : -2 ^ 63 ≤ id ∧ id < 2 ^ 63) (hsrc : src.length < 2 ^ 32)
    {chunk : Chunk} {c : Copy} {env : CopyEnv} {file : Bytes} {tx : ChnTx} {answers : List ChnSent} {finished : Bool}
    (hchunk : chunk ∈ t.sent) (hread : ReadAs server chunk c) (henv : env.Registers)
    (hwrite : MayWrite env t.file c chunk.data file) (htimely : Timely t.receiver c env)
    (hserve : serveCopyTx t.receiver c env = .ok (tx, answers, finished)) :
    { t with
      receiver := tx, file := file, received := t.received ++ [c], thanked := t.thanked || finished }.Inv id src := by
  rcases h.sent chunk hchunk with ⟨off, data, eof, rfl, hpiece, hlast⟩
  rcases readAs_chunkOf hid hsrc hpiece hread with ⟨hoff, hsize, heof, hend⟩
  have hfits := hpiece.fits
  have hdata : (chunkOf id off data eof).data = data := rfl
  obtain rfl := (mayWrite_writeAt hoff (hdata ▸ hwrite)).2 henv
  rw [heof]
  have hsound := serveCopyTx_sound h.sound htimely hserve
  rcases serveCopyTx_registered henv hserve with ⟨ts, hclock, rfl, hfinished⟩
  -- the fragments, before they are checked
  have hnew : (inFrag ts c).Fits src.length := by
    have hnewStart : (inFrag ts c).start = (off : Nat) := hoff
    have hnewEnd : (inFrag ts c).endAt = ((off + data.length : Nat) : Int) := hend
    refine ⟨by omega, by omega, by omega, fun hn => ?_⟩
    exact heof.trans (hlast (by omega))
  have hall : ∀ f ∈ insertByOffset (inFrag ts c) t.receiver.inFrags, f.Fits src.length := by
    intro f hf
    rcases mem_insertByOffset.1 hf with rfl | hf
    · exact hnew
    · exact h.fits f hf
  have hin : ∀ c' ∈ t.received ++ [c], ∃ f ∈ insertByOffset (inFrag ts c) t.receiver.inFrags,
      f.start ≤ c'.offset ∧ c'.endAt ≤ f.endAt := by
    intro c' hc'
    rcases List.mem_append.1 hc' with hmem | hmem
    · rcases h.within c' hmem with ⟨f, hf, hbounds⟩
      exact ⟨f, mem_insertByOffset.2 (.inr hf), hbounds⟩
    · rw [List.mem_singleton.1 hmem]
      exact ⟨inFrag ts c, mem_insertByOffset.2 (.inl rfl), le_rfl, le_rfl⟩
  have hreceived : ∀ c' ∈ t.received ++ [c], c'.endAt = c'.offset + c'.size ∧ c'.endAt ≤ src.length ∧
      (c'.eof = true → c'.endAt = src.length) := by
    intro c' hc'
    rcases List.mem_append.1 hc' with hmem | hmem
    · exact h.received c' hmem
    · rw [List.mem_singleton.1 hmem, hoff, hsize, heof, hend]
      exact ⟨Int.natCast_add _ _, by omega, fun htrue => by rw [hpiece.eof htrue]⟩
  refine ⟨h.sender, h.sent, hsound, checkInFrags_fits hall ts env.asks, fun c' hc' => ?_, hreceived, fun b hb => ?_,
    fun hany => ?_, ?_⟩
  · rcases hin c' hc' with ⟨f, hf, hstart, hend'⟩
    have hkept := @checkInFrags_within { t.receiver with inFrags := insertByOffset (inFrag ts c) t.receiver.inFrags }
      (h.sound.ordered.insert (inFrag ts c)) ts env.asks f hf
    rcases hkept with ⟨g, hg, hgstart, hgend⟩
    exact ⟨g, hg, hgstart.trans hstart, hend'.trans hgend⟩
  · rcases hb.append with hold | hnew
    · exact getElem?_writeAt hpiece (h.lt_of_carried hold) (.inr (h.bytes b hold))
    · rw [hoff, hsize] at hnew
      exact getElem?_writeAt hpiece (by omega) (.inl (by omega))
  · rcases hany with ⟨c', hc', htrue⟩
    apply length_writeAt hpiece
    rcases List.mem_append.1 hc' with hmem | hmem
    · exact .inl (h.length ⟨c', hmem, htrue⟩)
    · rw [List.mem_singleton.1 hmem, heof] at htrue
      exact .inr htrue
  · rw [Bool.or_eq_true, h.thanked]
    constructor
    · rintro (hbefore | hnow)
      · exact hbefore.mono c
      · rw [hfinished] at hnow
        exact hsound.completed (Bool.and_eq_true_iff.1 hnow).2
    · -- all has come, so that the fragments become one
      rintro ⟨n, ⟨c', hc', htrue, hn⟩, hbytes⟩
      have hlength : n = (src.length : Int) := hn.symm.trans ((hreceived c' hc').2.2 htrue)
      have hover := registerFrag_over env.asks h.sound.ordered hall fun b hlow hhigh => by
        rcases hbytes b hlow (by omega) with ⟨d, hd, hdlow, hdhigh⟩
        rcases hin d hd with ⟨f, hf, hstart, hend'⟩
        have hdend := (hreceived d hd).1
        exact ⟨f, hf, hstart.trans hdlow, by omega⟩
      rw [hfinished, hover.1, hover.2]
      exact .inr rfl

/-- A command that is not. -/
theorem Transfer.Inv.failed (h : t.Inv id src) (hid : -2 ^ 63 ≤ id ∧ id < 2 ^ 63) (hsrc : src.length < 2 ^ 32)
    {chunk : Chunk} {c : Copy} {env : CopyEnv} {file : Bytes} {tx : ChnTx} {answers : List ChnSent}
    {finished : Bool} (hchunk : chunk ∈ t.sent) (hread : ReadAs server chunk c) (hfailed : ¬ env.Registers)
    (hwrite : MayWrite env t.file c chunk.data file)
    (hserve : serveCopyTx t.receiver c env = .ok (tx, answers, finished)) :
    { t with receiver := tx, file := file, thanked := t.thanked || finished }.Inv id src := by
  rcases h.sent chunk hchunk with ⟨off, data, eof, rfl, hpiece, -⟩
  rcases readAs_chunkOf hid hsrc hpiece hread with ⟨hoff, -, heof, -⟩
  have hpart : ∃ part eof, PieceOf src off part eof ∧ file = writeAt t.file off part eof := by
    rcases (mayWrite_writeAt hoff hwrite).1 with ⟨n, hpart⟩ | hall
    · exact ⟨data.take n, false, hpiece.take n, hpart⟩
    · rw [heof] at hall
      exact ⟨data, eof, hpiece, hall⟩
  rcases hpart with ⟨part, eof', hpart, rfl⟩
  rcases serveCopyTx_failed hfailed hserve with ⟨hfrags, rfl⟩
  refine ⟨h.sender, h.sent, ?_, ?_, ?_, h.received, fun b hb => ?_, fun hany => ?_, ?_⟩
  · simpa only [hfrags] using h.sound
  · simpa only [hfrags] using h.fits
  · simpa only [hfrags] using h.within
  · exact getElem?_writeAt hpart (h.lt_of_carried hb) (.inr (h.bytes b hb))
  · exact length_writeAt hpart (.inl (h.length hany))
  · rw [Bool.or_false]
    exact h.thanked

theorem TransferStep.inv (hstep : TransferStep server src t t') (hid : -2 ^ 63 ≤ id ∧ id < 2 ^ 63)
    (hsrc : src.length < 2 ^ 32) (h : t.Inv id src) : t'.Inv id src := by
  cases hstep with
  | push now hpush => exact h.push hsrc hpush
  | copy env hchunk hread henv hwrite htimely hserve => exact h.copy hid hsrc hchunk hread henv hwrite htimely hserve
  | failed env hchunk hread hfailed hwrite hserve => exact h.failed hid hsrc hchunk hread hfailed hwrite hserve
  | check now writes hhole => exact h.check now writes hhole
  | status status hset =>
      rw [(chnTxSetStatus_ok hset).2.2]
      exact ⟨h.sender, h.sent, h.sound, h.fits, h.within, h.received, h.bytes, h.length, h.thanked⟩
  | acked status hset =>
      rw [(chnTxSetStatus_ok hset).2.2]
      exact ⟨h.sender, h.sent, h.sound, h.fits, h.within, h.received, h.bytes, h.length, h.thanked⟩

theorem TransferRun.inv {start : Transfer} (hrun : TransferRun server src start t)
    (hid : -2 ^ 63 ≤ id ∧ id < 2 ^ 63) (hsrc : src.length < 2 ^ 32) (hstart : start.Inv id src) : t.Inv id src := by
  induction hrun with
  | start => exact hstart
  | step _ hstep ih => exact hstep.inv hid hsrc ih

/-- The file of a complete reception. -/
theorem Transfer.Inv.file_eq (h : t.Inv id src) (hcompleted : Completed t.received) : t.file = src := by
  rcases hcompleted with ⟨n, ⟨c, hc, heof, hend⟩, hall⟩
  have hn : n = (src.length : Int) := hend.symm.trans ((h.received c hc).2.2 heof)
  have hlen := h.length ⟨c, hc, heof⟩
  apply List.ext_getElem?
  intro b
  by_cases hb : b < src.length
  · exact h.bytes b (hall b (by omega) (by omega))
  · rw [List.getElem?_eq_none (by omega), List.getElem?_eq_none (by omega)]

end Invariant

/-! ## A receiver that thanks -/

/-- Chunks that are lost, repeated and reordered, over any file: as long as `check_in_frags` finds no hole before a
recent fragment, and no `pwrite` follows a short one, the receiver thanks exactly when every byte and the end of file
were registered, and its file is then the file that is sent, whatever still comes. -/
theorem lossy_transfer {server : Bool} {id : Int} (hid : -2 ^ 63 ≤ id ∧ id < 2 ^ 63) {src : Bytes}
    (hsrc : src.length < 2 ^ 32) (sender receiver stream : Nat) (stream' : Option Nat) (ts ts' : Nat) (dest : Bytes)
    {t : Transfer}
    (hrun : TransferRun server src (Transfer.start id sender receiver stream stream' ts ts' dest) t) :
    (t.thanked = true ↔ Completed t.received) ∧ (t.thanked = true → t.file = src) := by
  have hinv := hrun.inv hid hsrc (Transfer.inv_start src sender receiver stream stream' ts ts' dest)
  exact ⟨hinv.thanked, fun hthanked => hinv.file_eq (hinv.thanked.1 hthanked)⟩

/-- Three bytes over a file of four; at first there is no memory for them. -/
theorem lossy_transfer_sample :
    ∃ t, TransferRun true [1, 2, 3] (Transfer.start 1 0 0 0 none 0 0 [7, 7, 7, 7]) t ∧
      Completed t.received ∧ t.file = [1, 2, 3] := by
  have hid : (-2 ^ 63 : Int) ≤ 1 ∧ (1 : Int) < 2 ^ 63 := by decide
  have hpush : ∃ tx, streamPush [1, 2, 3] (chnTxCtor 0 true 1 none 0) 0 =
      .ok (tx, [chunkOf 1 0 [1, 2, 3] true], true) := ⟨_, rfl⟩
  have hread : ReadAs true (chunkOf 1 0 [1, 2, 3] true) (copyOf 1 0 [1, 2, 3] true) :=
    ⟨[], (mdirCmdRead_chunk true hid 0 (by decide) true []).2⟩
  have hfailed : ¬ ({ CopyEnv.fine 0 with alloc := false } : CopyEnv).Registers := fun h =>
    Bool.false_ne_true h.alloc
  have hnothing : MayWrite { CopyEnv.fine 0 with alloc := false } [7, 7, 7, 7] (copyOf 1 0 [1, 2, 3] true) [1, 2, 3]
      [7, 7, 7, 7] := by
    rw [MayWrite, if_neg fun h => Bool.false_ne_true h.1]
  have hserve : ∃ tx answers, serveCopyTx (chnTxCtor 0 false 1 (some 0) 0) (copyOf 1 0 [1, 2, 3] true)
      (CopyEnv.fine 0) = .ok (tx, answers, true) := ⟨_, _, rfl⟩
  have htimely : Timely (chnTxCtor 0 false 1 (some 0) 0) (copyOf 1 0 [1, 2, 3] true) (CopyEnv.fine 0) :=
    fun ts _ => noHole_singleton (inFrag ts (copyOf 1 0 [1, 2, 3] true)) ts
  rcases hpush with ⟨tx, hpush⟩
  rcases hserve with ⟨rx, answers, hserve⟩
  have hpushed : TransferRun true [1, 2, 3] (Transfer.start 1 0 0 0 none 0 0 [7, 7, 7, 7]) _ :=
    .step .start (.push 0 hpush)
  have hlost := hpushed.step (.failed { CopyEnv.fine 0 with alloc := false } List.mem_cons_self hread hfailed
    hnothing rfl)
  have hwrite : MayWrite (CopyEnv.fine 0) [7, 7, 7, 7] (copyOf 1 0 [1, 2, 3] true) [1, 2, 3] [1, 2, 3] := by
    rw [MayWrite, if_pos ⟨rfl, rfl⟩]
    exact ⟨[.moved 3], .ok (), List.pairwise_singleton _ _, rfl⟩
  have hrun := hlost.step (.copy (CopyEnv.fine 0) List.mem_cons_self hread
    ⟨rfl, rfl, rfl, rfl, Option.some_ne_none _, rfl⟩ hwrite htimely hserve)
  have hthanked := lossy_transfer hid (by decide) 0 0 0 none 0 0 [7, 7, 7, 7] hrun
  exact ⟨_, hrun, hthanked.1.1 rfl, hthanked.2 rfl⟩

end Scambio
