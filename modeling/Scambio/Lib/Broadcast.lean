import Scambio.Lib.FileTransfer

/-!
# Broadcast — what the readers of a stream get (`lib/stream.c`)

A stream that has a file gives its readers bytes from two places: the thread of `stream_push` reads the
file where each reader stands, and `stream_write` hands the data of the writer to every reader, wherever
the reader stands.  The threads are cooperative, but sending may yield, so that any step of another
thread comes between two readers of a `stream_write`.

`Cast.Steady` is what keeps both in agreement: the writer writes where each reader stands, and neither
goes over bytes that were sent nor past an end of file that was told.
-/

namespace Scambio

open Library

/-- A `stream_write` under way, with the readers that it did not come to yet. -/
structure CastWrite where
  offset : Int
  data : Bytes
  eof : Bool
  left : List Nat
  deriving DecidableEq, Repr

/-- A stream with its file.  `pushing` tells if the thread of `stream_push` still runs, `ended` where
the last write with an end of file ended, and `sent` which reader got which chunk. -/
structure Cast where
  addr : Nat
  file : Bytes
  hasWriter : Bool
  readers : List ChnTx
  writing : Option CastWrite
  pushing : Bool
  ended : Option Nat
  sent : List (Nat × Chunk)
  deriving DecidableEq, Repr

inductive CastEvent
  | addWriter
  | removeWriter
  | addReader (addr : Nat) (id : Int) (ts : Nat)
  | removeReader (addr : Nat)
  /-- A `stream_write` starts: the file is written. -/
  | write (offset : Int) (data : Bytes) (eof : Bool)
  /-- It comes to the next reader. -/
  | deliver (now : Nat)
  /-- The turn of a reader in the loop of `stream_push`. -/
  | push (addr now : Nat)
  deriving DecidableEq, Repr

namespace Cast

/-- A stream on an existing file, or on a file that was just created. -/
def start (addr : Nat) (file : Bytes) : Cast :=
  { addr := addr, file := file, hasWriter := false, readers := [], writing := none, pushing := true
    ended := none, sent := [] }

def reader (s : Cast) (addr : Nat) : Option ChnTx :=
  s.readers.find? fun tx => tx.addr = addr

def setReader (s : Cast) (tx : ChnTx) : Cast :=
  { s with readers := s.readers.map fun t => if t.addr = tx.addr then tx else t }

def send (s : Cast) (addr : Nat) (chunks : List Chunk) : Cast :=
  { s with sent := s.sent ++ chunks.map fun c => (addr, c) }

/-- `stream_write` on the file; the writer has only one write at a time. -/
def write (s : Cast) (offset : Int) (data : Bytes) (eof : Bool) : Cast :=
  if s.hasWriter = false ∨ s.writing ≠ none then s
  else
    match streamWriteFile s.file offset data eof with
    | .error _ => s
    | .ok file =>
        { s with
          file := file
          writing := some { offset := offset, data := data, eof := eof, left := s.readers.map ChnTx.addr }
          ended := if eof then some (offset + data.length).toNat else s.ended }

/-- One turn of the loop of `stream_write` over the readers. -/
def deliver (s : Cast) (now : Nat) : Cast :=
  match s.writing with
  | none => s
  | some w =>
      match w.left with
      | [] => { s with writing := none }
      | addr :: left =>
          let s := { s with writing := some { w with left := left } }
          match s.reader addr with
          | none => s
          | some tx =>
              let (tx, chunks) := chnTxWrite tx now w.data.length (some w.data) w.eof
              (s.setReader tx).send addr chunks

/-- One turn of the loop of `stream_push` over the readers; an error is the end of its thread. -/
def push (s : Cast) (addr now : Nat) : Cast :=
  match s.pushing, s.reader addr with
  | true, some tx =>
      match streamPush s.file tx now with
      | .error _ => { s with pushing := false }
      | .ok (tx, chunks, _) => (s.setReader tx).send addr chunks
  | _, _ => s

def step (s : Cast) : CastEvent → Cast
  | .addWriter => { s with hasWriter := true }
  | .removeWriter => { s with hasWriter := false }
  | .addReader addr id ts =>
      -- another transfer has another address
      if (s.reader addr).isSome then s
      else { s with readers := chnTxCtor addr true id (some s.addr) ts :: s.readers }
  | .removeReader addr => { s with readers := s.readers.filter fun tx => tx.addr ≠ addr }
  | .write offset data eof => s.write offset data eof
  | .deliver now => s.deliver now
  | .push addr now => s.push addr now

/-- The length of the content: the end of the write with the end of file, or the size of the file. -/
def finalLength (s : Cast) : Nat :=
  s.ended.getD s.file.length

/-- What was sent is in the content, where the readers were told that it is. -/
structure Faithful (s : Cast) : Prop where
  bytes : ∀ r ∈ s.sent, ∀ i b, r.2.data[i]? = some b → s.file[r.2.offset + i]? = some b
  eof : ∀ r ∈ s.sent, r.2.eof = true → r.2.offset + r.2.data.length = s.finalLength

/-! ## The condition on steps -/

/-- A byte that was sent to some reader. -/
def Sent (s : Cast) (p : Nat) : Prop :=
  ∃ r ∈ s.sent, r.2.offset ≤ p ∧ p < r.2.offset + r.2.data.length

/-- An end of file that was sent to some reader. -/
def ToldEof (s : Cast) : Prop :=
  ∃ r ∈ s.sent, r.2.eof = true

/-- The last chunk of some data starts before 2^32. -/
def Narrow (off len : Nat) : Prop :=
  off + CHUNK_SIZE * ((len - 1) / CHUNK_SIZE) < 2 ^ 32

instance (off len : Nat) : Decidable (Narrow off len) :=
  inferInstanceAs (Decidable (_ < _))

/-- The write changes no byte that was sent, nor the length once it was told. -/
structure SteadyWrite (s : Cast) (off : Nat) (data : Bytes) (eof : Bool) : Prop where
  bytes : ∀ i, s.Sent (off + i) → i < data.length → s.file[off + i]? = data[i]?
  inside : eof = true → ∀ p, s.Sent p → p < off + data.length
  last : s.ToldEof → eof = true → off + data.length = s.finalLength
  more : s.ToldEof → eof = false → s.ended = none → data = [] ∨ off + data.length ≤ s.file.length

/-- The reader stands where the data was written, and its offsets fit. -/
def SteadyDeliver (w : CastWrite) (tx : ChnTx) : Prop :=
  (w.data = [] ∧ w.eof = false) ∨ (tx.endOffset = w.offset ∧ Narrow w.offset.toNat w.data.length)

/-- The offsets of what is read from the file fit, and the file ends where the writer said. -/
structure SteadyPush (s : Cast) (off : Nat) : Prop where
  narrow : Narrow off (min STREAM_READ_BLOCK (s.file.length - off))
  last : s.file.length ≤ off + STREAM_READ_BLOCK → ∀ n, s.ended = some n → s.file.length = n

def Steady (s : Cast) : CastEvent → Prop
  | .addReader .. | .addWriter | .removeReader _ | .removeWriter => True
  | .write offset data eof => ∀ off : Nat, offset = off → s.SteadyWrite off data eof
  | .deliver _ => ∀ w addr left tx, s.writing = some w → w.left = addr :: left →
      s.reader addr = some tx → SteadyDeliver w tx
  | .push addr _ => ∀ tx off, s.reader addr = some tx → tx.endOffset = (off : Nat) →
      off ≤ s.file.length → s.SteadyPush off

end Cast

/-- The runs of a stream whose steps satisfy `ok`. -/
inductive Casting (ok : Cast → CastEvent → Prop) : Cast → Prop
  | start (addr : Nat) (file : Bytes) : Casting ok (Cast.start addr file)
  | step {s : Cast} (e : CastEvent) : Casting ok s → ok s e → Casting ok (s.step e)

/-! ## Chunks and files -/

/-- A chunk of consecutive pieces, with what comes before it. -/
theorem mem_chunksOf {id : Int} {off : Nat} {ps : List Bytes} {eof : Bool} {c : Chunk}
    (hc : c ∈ chunksOf id off ps eof) :
    ∃ ps₁ p ps₂, ps = ps₁ ++ p :: ps₂ ∧
      c = chunkOf id (off + ps₁.flatten.length) p (ps₂.isEmpty && eof) := by
  induction ps generalizing off with
  | nil => cases hc
  | cons q ps ih =>
      rcases List.mem_cons.1 hc with rfl | hc
      · exact ⟨[], q, ps, rfl, rfl⟩
      · rcases ih hc with ⟨ps₁, p, ps₂, rfl, rfl⟩
        refine ⟨q :: ps₁, p, ps₂, rfl, ?_⟩
        rw [List.flatten_cons, List.length_append, Nat.add_assoc]

/-- The chunks of some data whose offsets fit are found at their offsets wherever the data is, and the
one with the end of file ends where the data does. -/
theorem mem_chunksOf_pieces {id : Int} {off : Nat} {data : Bytes} {eof : Bool}
    (hfit : Cast.Narrow off data.length) {c : Chunk}
    (hc : c ∈ chunksOf id off (pieces CHUNK_SIZE data) eof) :
    (∀ i b, c.data[i]? = some b → ∃ j, c.offset + i = off + j ∧ data[j]? = some b) ∧
      (c.eof = true → eof = true ∧ c.offset + c.data.length = off + data.length) := by
  rcases mem_chunksOf hc with ⟨ps₁, p, ps₂, hps, rfl⟩
  have hflat := flatten_pieces CHUNK_SIZE data
  rw [hps, List.flatten_append, List.flatten_cons] at hflat
  have hstart : ps₁.flatten.length ≤ CHUNK_SIZE * ((data.length - 1) / CHUNK_SIZE) := by
    rw [← startOfLast_pieces (by decide) data]
    exact start_le_startOfLast hps
  have hoff : (off + ps₁.flatten.length) % 2 ^ 32 = off + ps₁.flatten.length :=
    Nat.mod_eq_of_lt (Nat.lt_of_le_of_lt (Nat.add_le_add_left hstart off) hfit)
  simp only [chunkOf, hoff]
  constructor
  · intro i b hb
    refine ⟨ps₁.flatten.length + i, by rw [Nat.add_assoc], ?_⟩
    have hi : i < p.length := (List.getElem?_eq_some_iff.1 hb).1
    rw [← hflat, List.getElem?_append_right (Nat.le_add_right _ _), Nat.add_sub_cancel_left,
      List.getElem?_append_left hi, hb]
  · intro heof
    rcases Bool.and_eq_true_iff.1 heof with ⟨hnil, heof⟩
    have hlen := congrArg List.length hflat
    rw [List.isEmpty_iff.1 hnil, List.flatten_nil, List.append_nil, List.length_append] at hlen
    exact ⟨heof, by omega⟩

/-! ## One step -/

/-- A stream with what was written, and readers that stand at offsets. -/
structure Cast.Inv (s : Cast) : Prop where
  faithful : s.Faithful
  readers : ∀ tx ∈ s.readers, ∃ k : Nat, tx.endOffset = k ∧ k < 2 ^ 63
  written : ∀ w, s.writing = some w →
    ∀ i b, w.data[i]? = some b → s.file[w.offset.toNat + i]? = some b
  ended : ∀ w, s.writing = some w → w.eof = true → s.ended = some (w.offset + w.data.length).toNat

theorem Cast.mem_setReader {s : Cast} {tx t : ChnTx} (h : t ∈ (s.setReader tx).readers) :
    t = tx ∨ t ∈ s.readers := by
  rcases List.mem_map.1 h with ⟨t', ht', rfl⟩
  split
  · exact .inl rfl
  · exact .inr ht'

theorem Cast.reader_mem {s : Cast} {addr : Nat} {tx : ChnTx} (h : s.reader addr = some tx) :
    tx ∈ s.readers :=
  List.mem_of_find?_eq_some h

/-- Readers and writers come and go. -/
theorem Cast.Faithful.congr {s s' : Cast} (h : s.Faithful) (hfile : s'.file = s.file)
    (hended : s'.ended = s.ended) (hsent : s'.sent = s.sent) : s'.Faithful := by
  constructor
  · rw [hsent, hfile]
    exact h.bytes
  · rw [hsent, Cast.finalLength, hended, hfile]
    exact h.eof

/-- More chunks of what is in the file, for a reader that goes on. -/
theorem Cast.Inv.send {s : Cast} (h : s.Inv) {tx : ChnTx} {k addr : Nat} (hk : tx.endOffset = k)
    (hlt : k < 2 ^ 63) {chunks : List Chunk}
    (hbytes : ∀ c ∈ chunks, ∀ i b, c.data[i]? = some b → s.file[c.offset + i]? = some b)
    (heof : ∀ c ∈ chunks, c.eof = true → c.offset + c.data.length = s.finalLength) :
    ((s.setReader tx).send addr chunks).Inv := by
  refine ⟨⟨?_, ?_⟩, ?_, h.written, h.ended⟩
  · intro r hr
    rcases List.mem_append.1 hr with hr | hr
    · exact h.faithful.bytes r hr
    · rcases List.mem_map.1 hr with ⟨c, hc, rfl⟩
      exact hbytes c hc
  · intro r hr
    rcases List.mem_append.1 hr with hr | hr
    · exact h.faithful.eof r hr
    · rcases List.mem_map.1 hr with ⟨c, hc, rfl⟩
      exact heof c hc
  · intro t ht
    rcases Cast.mem_setReader ht with rfl | ht
    · exact ⟨k, hk, hlt⟩
    · exact h.readers t ht

/-- What `Narrow` says of the end of the data. -/
theorem Cast.Narrow.end_lt {off len : Nat} (h : Narrow off len) : off + len < 2 ^ 63 := by
  have hsize : CHUNK_SIZE = 1400 := rfl
  rw [Narrow, hsize] at h
  omega

/-- `stream_write`, on the file. -/
theorem Cast.Inv.write {s : Cast} (h : s.Inv) {offset : Int} {data : Bytes} {eof : Bool}
    (hok : ∀ off : Nat, offset = off → s.SteadyWrite off data eof) : (s.write offset data eof).Inv := by
  unfold Cast.write
  split
  · exact h
  rcases Int.lt_or_le offset 0 with hneg | hpos
  · -- nothing but an empty write is possible there
    split
    · exact h
    · next file hfile =>
      unfold streamWriteFile at hfile
      split at hfile
      · cases hfile
      next hcond =>
      have hdata : data = [] := by
        by_contra hne
        exact hcond ⟨hne, hneg⟩
      subst hdata
      cases eof with
      | true =>
          rw [if_pos rfl, if_pos rfl, if_pos (by simpa using hneg)] at hfile
          cases hfile
      | false =>
          rw [if_pos rfl, if_neg (by decide)] at hfile
          cases hfile
          refine ⟨h.faithful.congr rfl rfl rfl, h.readers, ?_, ?_⟩
          · intro w hw i b hb
            cases hw
            cases hb
          · intro w hw heof
            cases hw
            cases heof
  · obtain ⟨off, rfl⟩ := Int.eq_ofNat_of_zero_le hpos
    have hsteady := hok off rfl
    rw [streamWriteFile_natCast]
    refine ⟨⟨?_, ?_⟩, h.readers, ?_, ?_⟩
    · intro r hr i b hb
      have hi : i < r.2.data.length := (List.getElem?_eq_some_iff.1 hb).1
      -- what was sent is written over by the same bytes only
      have hsent : s.Sent (r.2.offset + i) := ⟨r, hr, by omega, by omega⟩
      refine getElem?_writeAt_of_eq (h.faithful.bytes r hr i b hb) ?_ fun heof => hsteady.inside heof _ hsent
      intro j hj hlt
      rw [hj] at hsent ⊢
      exact hsteady.bytes j hsent hlt
    · intro r hr heof
      -- the end that a reader was told stays the end
      have htold : s.ToldEof := ⟨r, hr, heof⟩
      rw [h.faithful.eof r hr heof]
      cases eof with
      | true =>
          rw [← hsteady.last htold rfl]
          rfl
      | false =>
          have hmore := hsteady.more htold rfl
          cases hended : s.ended with
          | some n => simp [Cast.finalLength, hended]
          | none =>
              rcases hmore hended with rfl | hle
              · simp [Cast.finalLength, hended, writeAt]
              · have hlen := length_overwrite 0 s.file off data
                simp only [Cast.finalLength, hended, writeAt, Option.getD_none, Bool.false_eq_true, if_false]
                split <;> omega
    · intro w hw i b hb
      cases hw
      have hi : i < data.length := (List.getElem?_eq_some_iff.1 hb).1
      exact (getElem?_writeAt_add eof hi).trans hb
    · intro w hw heof
      cases hw
      have heof' : eof = true := heof
      simp [heof']

/-- `stream_write`, for one reader. -/
theorem Cast.Inv.deliver {s : Cast} (h : s.Inv) {now : Nat} (hok : s.Steady (.deliver now)) :
    (s.deliver now).Inv := by
  unfold Cast.deliver
  split
  · exact h
  next w hw =>
  split
  · refine ⟨h.faithful.congr rfl rfl rfl, h.readers, ?_, ?_⟩ <;> intro w' hw' <;> cases hw'
  next addr left hleft =>
  have hnext : ({ s with writing := some { w with left := left } } : Cast).Inv := by
    refine ⟨h.faithful.congr rfl rfl rfl, h.readers, ?_, ?_⟩ <;> intro w' hw' <;> cases hw'
    · exact h.written w hw
    · exact h.ended w hw
  simp only
  split
  · exact hnext
  next tx htx =>
  rcases h.readers tx (Cast.reader_mem htx) with ⟨k, hk, hlt⟩
  rcases hok w addr left tx hw hleft htx with ⟨hdata, heof⟩ | ⟨hoff, hfit⟩
  · -- an empty chunk
    have hwrite := chnTxWrite_eq hk now w.data (by rw [hdata]; exact hlt) w.eof
    refine hnext.send hwrite.2.1 (by rw [hdata]; exact hlt) ?_ ?_
    · intro c hc i b hb
      rw [hwrite.1, hdata, pieces_of_le (Nat.zero_le _)] at hc
      rw [List.mem_singleton.1 hc] at hb
      cases hb
    · intro c hc hceof
      rw [hwrite.1, hdata, heof, pieces_of_le (Nat.zero_le _)] at hc
      rw [List.mem_singleton.1 hc] at hceof
      cases hceof
  · have hoff' : w.offset.toNat = k := by
      rw [← hoff, hk, Int.toNat_natCast]
    rw [hoff'] at hfit
    have hend : k + w.data.length < 2 ^ 63 := hfit.end_lt
    have hwrite := chnTxWrite_eq hk now w.data hend w.eof
    refine hnext.send hwrite.2.1 hend ?_ ?_
    · intro c hc i b hb
      rw [hwrite.1] at hc
      rcases (mem_chunksOf_pieces hfit hc).1 i b hb with ⟨j, hj, hjb⟩
      rw [hj, ← hoff']
      exact h.written w hw j b hjb
    · intro c hc hceof
      rw [hwrite.1] at hc
      rcases (mem_chunksOf_pieces hfit hc).2 hceof with ⟨heof, hclen⟩
      have hended := h.ended w hw heof
      rw [hclen, Cast.finalLength, hended, Option.getD_some, ← hoff, hk]
      omega

/-- `stream_push`, for one reader. -/
theorem Cast.Inv.push {s : Cast} (h : s.Inv) {addr now : Nat} (hok : s.Steady (.push addr now)) :
    (s.push addr now).Inv := by
  unfold Cast.push
  split
  case h_2 => exact h
  next tx hpushing htx =>
  rcases h.readers tx (Cast.reader_mem htx) with ⟨k, hk, hlt⟩
  rcases Nat.lt_or_ge s.file.length k with hgt | hle
  · rw [streamPush_short hk hgt hlt]
    exact ⟨h.faithful.congr rfl rfl rfl, h.readers, h.written, h.ended⟩
  · have hsteady := hok tx k htx hk hle
    have hblock : ((s.file.drop k).take STREAM_READ_BLOCK).length =
        min STREAM_READ_BLOCK (s.file.length - k) := by
      rw [List.length_take, List.length_drop]
    have hfit := hsteady.narrow
    rw [← hblock] at hfit
    rcases streamPush_eq hk hle hfit.end_lt now rfl with ⟨tx', hpush, htx'⟩
    have hwrite := chnTxWrite_eq hk now ((s.file.drop k).take STREAM_READ_BLOCK) hfit.end_lt
      (decide ((s.file.drop k).length ≤ STREAM_READ_BLOCK))
    rw [← htx'] at hwrite
    rw [hpush]
    refine h.send hwrite.2.1 hfit.end_lt ?_ ?_
    · intro c hc i b hb
      rcases (mem_chunksOf_pieces hfit hc).1 i b hb with ⟨j, hj, hjb⟩
      have hlt' : j < STREAM_READ_BLOCK := by
        have hj' := (List.getElem?_eq_some_iff.1 hjb).1
        omega
      rw [List.getElem?_take_of_lt hlt', List.getElem?_drop] at hjb
      rw [hj, hjb]
    · intro c hc hceof
      rcases (mem_chunksOf_pieces hfit hc).2 hceof with ⟨heof, hclen⟩
      have hlast : s.file.length ≤ k + STREAM_READ_BLOCK := by
        have hle' := of_decide_eq_true heof
        rw [List.length_drop] at hle'
        omega
      have hfinal : s.finalLength = s.file.length := by
        cases hended : s.ended with
        | none => simp [Cast.finalLength, hended]
        | some n => simp [Cast.finalLength, hended, hsteady.last hlast n hended]
      rw [hclen, hfinal, hblock]
      omega

theorem Cast.Inv.step {s : Cast} (h : s.Inv) {e : CastEvent} (hok : s.Steady e) : (s.step e).Inv := by
  cases e with
  | addWriter => exact ⟨h.faithful.congr rfl rfl rfl, h.readers, h.written, h.ended⟩
  | removeWriter => exact ⟨h.faithful.congr rfl rfl rfl, h.readers, h.written, h.ended⟩
  | addReader addr id ts =>
      simp only [Cast.step]
      split
      · exact h
      · refine ⟨h.faithful.congr rfl rfl rfl, ?_, h.written, h.ended⟩
        intro tx htx
        rcases List.mem_cons.1 htx with rfl | htx
        · exact ⟨0, rfl, by decide⟩
        · exact h.readers tx htx
  | removeReader addr =>
      refine ⟨h.faithful.congr rfl rfl rfl, ?_, h.written, h.ended⟩
      intro tx htx
      exact h.readers tx (List.mem_filter.1 htx).1
  | write offset data eof => exact h.write hok
  | deliver now => exact h.deliver hok
  | push addr now => exact h.push hok

/-! ## Runs -/

theorem Casting.inv {s : Cast} (h : Casting Cast.Steady s) : s.Inv := by
  induction h with
  | start addr file =>
      refine ⟨⟨?_, ?_⟩, ?_, ?_, ?_⟩ <;> intro x hx <;> cases hx
  | step e _ hok ih => exact ih.step hok

/-- What the readers get of a stream is its content, in every run of steady steps. -/
theorem readers_see_content {s : Cast} (h : Casting Cast.Steady s) : s.Faithful :=
  h.inv.faithful

/-- A reader comes, and the writer writes the whole content where it stands. -/
def sampleCast : Cast :=
  (((Cast.start 0 []).step .addWriter).step (.addReader 3 1 0)).step (.write 0 [5, 6] true)

theorem readers_see_content_sample :
    (sampleCast.step (.deliver 9)).sent.map (fun r => (r.1, r.2.offset, r.2.data, r.2.eof)) =
      [(3, 0, [5, 6], true)] ∧ (sampleCast.step (.deliver 9)).Faithful := by
  have hsent : ∀ p, ¬ (((Cast.start 0 []).step .addWriter).step (.addReader 3 1 0)).Sent p := by
    rintro p ⟨r, hr, -⟩
    cases hr
  have htold : ¬ (((Cast.start 0 []).step .addWriter).step (.addReader 3 1 0)).ToldEof := by
    rintro ⟨r, hr, -⟩
    cases hr
  have hwrite : Casting Cast.Steady sampleCast := by
    refine .step _ (.step _ (.step _ (.start 0 []) trivial) trivial) ?_
    intro off _
    exact ⟨fun i h => absurd h (hsent _), fun _ p h => absurd h (hsent p), fun h => absurd h htold,
      fun h => absurd h htold⟩
  refine ⟨by decide, readers_see_content (.step _ hwrite ?_)⟩
  intro w addr left tx hw hleft htx
  cases hw
  cases hleft
  cases htx
  exact .inr ⟨rfl, by decide⟩

/-- A reader comes before the writer, and is told at once that the file ends. -/
theorem not_readers_see_content : ¬ ∀ s : Cast, Casting (fun _ _ => True) s → s.Faithful := by
  intro h
  have hrun : Casting (fun _ _ => True) (((((Cast.start 0 []).step .addWriter).step
      (.addReader 3 1 0)).step (.push 3 9)).step (.write 0 [5, 6] true)) :=
    .step _ (.step _ (.step _ (.step _ (.start 0 []) trivial) trivial) trivial) trivial
  have hpush : (((((Cast.start 0 []).step .addWriter).step (.addReader 3 1 0)).step (.push 3 9)).step
      (.write 0 [5, 6] true)).sent = [(3, chunkOf 1 0 [] true)] := by decide
  have heof := (h _ hrun).eof (3, chunkOf 1 0 [] true) (by rw [hpush]; exact List.mem_singleton.2 rfl) rfl
  revert heof
  decide

end Scambio
