import Mathlib.Tactic.Ring
import Scambio.Lib.CmdWords
import Scambio.Lib.LifeCycle
import Scambio.Lib.Sender
import Scambio.Library.Pieces

/-!
# FileTransfer — what is received of a file that is sent

The file goes through two cuts, in blocks and then in chunks.  `chunksOf` are the chunks of a list of
pieces, and `pushFile_eq` says that this is what `stream_push` sends.  The receiver finds the chunks
back with their offsets modulo 2^32 (`receiveFile_chunksOf`), since `send_chunk` prints them as unsigned
integers.
-/

namespace Scambio

open Library

/-! ## Pieces as chunks -/

/-- The chunk of some data at an offset. -/
def chunkOf (id : Int) (off : Nat) (data : Bytes) (eof : Bool) : Chunk :=
  { line := queryText 8 none kwCopy [chunkParams id (off % 2 ^ 32) data.length eof] none
    data := data
    sent := data.length
    offset := off % 2 ^ 32
    eof := eof }

@[simp] theorem sent_chunkOf (id : Int) (off : Nat) (data : Bytes) (eof : Bool) :
    (chunkOf id off data eof).sent = data.length := rfl

/-- The chunks of consecutive pieces; the last one may carry the end of file. -/
def chunksOf (id : Int) (off : Nat) : List Bytes → Bool → List Chunk
  | [], _ => []
  | p :: ps, eof =>
      chunkOf id off p (ps.isEmpty && eof) :: chunksOf id (off + p.length) ps eof

theorem chunksOf_append (id : Int) (off : Nat) (ps : List Bytes) {qs : List Bytes} (hne : qs ≠ [])
    (eof : Bool) :
    chunksOf id off (ps ++ qs) eof =
      chunksOf id off ps false ++ chunksOf id (off + ps.flatten.length) qs eof := by
  induction ps generalizing off with
  | nil => simp [chunksOf]
  | cons p ps ih =>
      have hempty : (ps ++ qs).isEmpty = false := by
        cases ps with
        | nil => simpa using hne
        | cons q ps => rfl
      rw [List.cons_append, chunksOf, ih, hempty, chunksOf, List.flatten_cons, List.length_append,
        Nat.add_assoc, Bool.false_and, Bool.and_false, List.cons_append]

/-- One chunk of a fragment, `k` bytes after its start. -/
theorem sendChunk_eq (id : Int) {f : Fragment} {box : Bytes} {a k : Nat} (hbox : f.box = some box)
    (hstart : f.start = a) (hend : f.endAt = (a + box.length : Nat)) (hk : k ≤ box.length)
    (hlen : box.length < 2 ^ 64) :
    sendChunk id f ((a + k : Nat) : Int) =
      chunkOf id (a + k) ((box.drop k).take CHUNK_SIZE)
        (decide ((box.drop k).length ≤ CHUNK_SIZE) && f.eof) := by
  have hleft : ((f.endAt - ((a + k : Nat) : Int)) % 2 ^ 64).toNat = (box.drop k).length := by
    rw [hend, List.length_drop]
    push_cast
    omega
  have hpos : (((a + k : Nat) : Int) - f.start).toNat = k := by
    rw [hstart]
    push_cast
    omega
  have htake : ((box.drop k).take CHUNK_SIZE).length =
      if (box.drop k).length > CHUNK_SIZE then CHUNK_SIZE else (box.drop k).length := by
    rw [List.length_take]
    split <;> omega
  have hslice : (box.drop k).take (if (box.drop k).length > CHUNK_SIZE then CHUNK_SIZE
      else (box.drop k).length) = (box.drop k).take CHUNK_SIZE := by
    split
    · rfl
    · rw [List.take_of_length_le le_rfl, List.take_of_length_le (by omega)]
  have heof : (if (box.drop k).length > CHUNK_SIZE then false else f.eof) =
      (decide ((box.drop k).length ≤ CHUNK_SIZE) && f.eof) := by
    by_cases hgt : (box.drop k).length > CHUNK_SIZE
    · have hle : ¬ (box.drop k).length ≤ CHUNK_SIZE := by omega
      rw [if_pos hgt, decide_eq_false hle, Bool.false_and]
    · have hle : (box.drop k).length ≤ CHUNK_SIZE := by omega
      rw [if_neg hgt, decide_eq_true hle, Bool.true_and]
  have hoff : (((a + k : Nat) : Int) % 2 ^ 32).toNat = (a + k) % 2 ^ 32 := by omega
  simp only [sendChunk, chunkOf, hbox, hleft, hpos, slice, hslice, heof, htake, hoff]

theorem sendAllChunks_eq (id : Int) {f : Fragment} {box : Bytes} {a : Nat} (hbox : f.box = some box)
    (hstart : f.start = a) (hend : f.endAt = (a + box.length : Nat)) (hlen : box.length < 2 ^ 64)
    {n k : Nat} (hk : k ≤ box.length) (hn : box.length - k < n) :
    sendAllChunks id f n ((a + k : Nat) : Int) =
      chunksOf id (a + k) (pieces CHUNK_SIZE (box.drop k)) f.eof := by
  induction n generalizing k with
  | zero => omega
  | succ n ih =>
      have hdrop : (box.drop k).length = box.length - k := List.length_drop
      rw [sendAllChunks, sendChunk_eq id hbox hstart hend hk hlen]
      by_cases hle : (box.drop k).length ≤ CHUNK_SIZE
      · -- the last chunk
        have hall : (box.drop k).take CHUNK_SIZE = box.drop k := List.take_of_length_le hle
        have hstop : ¬ (((a + k : Nat) : Int) +
            (chunkOf id (a + k) (box.drop k) (true && f.eof)).sent < f.endAt) := by
          rw [sent_chunkOf, hend, hdrop]
          push_cast
          omega
        rw [pieces_of_le hle, hall, decide_eq_true hle, if_neg hstop]
        rfl
      · have hsize : 0 < CHUNK_SIZE := by decide
        have hgt : CHUNK_SIZE < (box.drop k).length := by omega
        have htake : ((box.drop k).take CHUNK_SIZE).length = CHUNK_SIZE := by
          rw [List.length_take]
          omega
        have hgo : ((a + k : Nat) : Int) + (CHUNK_SIZE : Nat) < f.endAt := by
          rw [hend]
          push_cast
          omega
        have hnext : ((a + k : Nat) : Int) + (CHUNK_SIZE : Nat) = ((a + (k + CHUNK_SIZE) : Nat) : Int) := by
          push_cast
          ring
        have hmore : (pieces CHUNK_SIZE (box.drop (k + CHUNK_SIZE))).isEmpty = false := by
          simpa using pieces_ne_nil CHUNK_SIZE (box.drop (k + CHUNK_SIZE))
        rw [pieces_of_lt hsize hgt, decide_eq_false hle, Bool.false_and, List.drop_drop, chunksOf, htake,
          hmore, Bool.false_and]
        simp only [sent_chunkOf, htake]
        rw [if_pos hgo, hnext, ih (by omega) (by omega), Nat.add_assoc]

/-! ## Blocks -/

/-- All the pieces of a file: chunks of blocks. -/
def filePieces (file : Bytes) : List Bytes :=
  (pieces STREAM_READ_BLOCK file).flatMap (pieces CHUNK_SIZE)

theorem filePieces_ne_nil (file : Bytes) : filePieces file ≠ [] := by
  intro hnil
  rcases List.exists_mem_of_ne_nil _ (pieces_ne_nil STREAM_READ_BLOCK file) with ⟨b, hb⟩
  exact pieces_ne_nil CHUNK_SIZE b (List.flatMap_eq_nil_iff.1 hnil b hb)

theorem flatten_filePieces (file : Bytes) : (filePieces file).flatten = file := by
  rw [filePieces, flatten_flatMap_of (flatten_pieces CHUNK_SIZE), flatten_pieces]

theorem length_le_of_mem_filePieces {file p : Bytes} (hp : p ∈ filePieces file) :
    p.length ≤ CHUNK_SIZE := by
  rcases List.mem_flatMap.1 hp with ⟨b, -, hp⟩
  exact length_le_of_mem_pieces (by decide) hp

/-- The last chunk of all: where its block starts, and where it starts in its block. -/
theorem startOfLast_filePieces (file : Bytes) :
    startOfLast (filePieces file) =
      10000 * ((file.length - 1) / 10000) + 1400 * ((file.length - 10000 * ((file.length - 1) / 10000) - 1) / 1400) := by
  rcases exists_startOfLast (pieces_ne_nil STREAM_READ_BLOCK file) with ⟨bs, b, hbs, hstart⟩
  have hflat := flatten_pieces STREAM_READ_BLOCK file
  rw [hbs, List.flatten_append, List.flatten_singleton] at hflat
  have hlen : bs.flatten.length + b.length = file.length := by
    rw [← List.length_append, hflat]
  have hblock : bs.flatten.length = 10000 * ((file.length - 1) / 10000) := by
    rw [hstart]
    exact startOfLast_pieces (by decide) file
  have hchunk : startOfLast (pieces CHUNK_SIZE b) = 1400 * ((b.length - 1) / 1400) :=
    startOfLast_pieces (by decide) b
  rw [filePieces, startOfLast_flatMap _ (pieces_ne_nil CHUNK_SIZE) (flatten_pieces CHUNK_SIZE) hbs, hchunk,
    hblock]
  congr 3
  omega

/-- `chn_tx_write` of a box, for a sender that stands at `k`. -/
theorem chnTxWrite_eq {tx : ChnTx} {k : Nat} (hk : tx.endOffset = k) (now : Nat) (box : Bytes)
    (hend : k + box.length < 2 ^ 63) (eof : Bool) :
    (chnTxWrite tx now box.length (some box) eof).2 = chunksOf tx.id k (pieces CHUNK_SIZE box) eof ∧
      (chnTxWrite tx now box.length (some box) eof).1.endOffset = (k + box.length : Nat) ∧
      (chnTxWrite tx now box.length (some box) eof).1.id = tx.id := by
  have hoff : offT (tx.endOffset + (box.length : Nat)) = (k + box.length : Nat) := by
    rw [hk, offT_of_fits (by omega) (by omega), Int.natCast_add]
  have hall := sendAllChunks_eq tx.id (f := outFrag tx now box.length (some box) eof) (n := box.length + 1)
    (k := 0) rfl hk hoff (by omega) (by omega) (by omega)
  refine ⟨?_, hoff, rfl⟩
  have hstart : (outFrag tx now box.length (some box) eof).start = ((k + 0 : Nat) : Int) := by
    rw [Nat.add_zero]
    exact hk
  rw [chnTxWrite]
  simp only
  rw [hstart, hall]
  rfl

/-- A turn of `stream_push`, for a reader that stands at `k`. -/
theorem streamPush_eq {file : Bytes} {tx : ChnTx} {k : Nat} (hk : tx.endOffset = k)
    (hle : k ≤ file.length) (hend : k + ((file.drop k).take STREAM_READ_BLOCK).length < 2 ^ 63)
    (now : Nat) {eof : Bool} (heof : eof = decide ((file.drop k).length ≤ STREAM_READ_BLOCK)) :
    ∃ tx', streamPush file tx now =
        .ok (tx', chunksOf tx.id k (pieces CHUNK_SIZE ((file.drop k).take STREAM_READ_BLOCK)) eof, eof) ∧
      tx' = (chnTxWrite tx now ((file.drop k).take STREAM_READ_BLOCK).length
        (some ((file.drop k).take STREAM_READ_BLOCK)) eof).1 := by
  have hdrop : (file.drop k).length = file.length - k := List.length_drop
  have htake : ((file.drop k).take STREAM_READ_BLOCK).length =
      min STREAM_READ_BLOCK (file.drop k).length := List.length_take
  have hend' : decide ((STREAM_READ_BLOCK : Int) + tx.endOffset ≥ (file.length : Nat)) = eof := by
    rw [heof, hk, decide_eq_decide]
    omega
  have hsize : (if eof then (((file.length : Int) - tx.endOffset) % 2 ^ 64).toNat else STREAM_READ_BLOCK) =
      ((file.drop k).take STREAM_READ_BLOCK).length := by
    have hiff : eof = true ↔ (file.drop k).length ≤ STREAM_READ_BLOCK := by rw [heof, decide_eq_true_iff]
    rw [hk, htake]
    split
    · next h =>
      have hlast := hiff.1 h
      omega
    · next h =>
      have hmore : ¬ (file.drop k).length ≤ STREAM_READ_BLOCK := fun hlast => h (hiff.2 hlast)
      omega
  have hread : readFrom file tx.endOffset ((file.drop k).take STREAM_READ_BLOCK).length =
      .ok ((file.drop k).take STREAM_READ_BLOCK) := by
    rw [hk, readFrom]
    split
    · next hzero => rw [List.eq_nil_of_length_eq_zero hzero]
    · rw [if_neg (by omega), if_pos (by omega), slice, Int.toNat_natCast, htake]
      congr 1
      rcases Nat.le_total STREAM_READ_BLOCK (file.drop k).length with hmin | hmin
      · rw [Nat.min_eq_left hmin]
      · rw [Nat.min_eq_right hmin, List.take_of_length_le le_rfl, List.take_of_length_le hmin]
  have hwrite := chnTxWrite_eq hk now ((file.drop k).take STREAM_READ_BLOCK) hend eof
  refine ⟨_, ?_, rfl⟩
  rw [← hwrite.1]
  simp only [streamPush, hend', hsize, hread, bind, Except.bind]
  rfl

/-- There is nothing to read past the end of the file. -/
theorem streamPush_short {file : Bytes} {tx : ChnTx} {k : Nat} (hk : tx.endOffset = k)
    (hgt : file.length < k) (hlt : k < 2 ^ 63) (now : Nat) :
    streamPush file tx now = .error (.push 0 (ascii "EOF")) := by
  have heof : (STREAM_READ_BLOCK : Int) + tx.endOffset ≥ (file.length : Nat) := by
    rw [hk]
    omega
  obtain ⟨size, hsize⟩ : ∃ size, size = (((file.length : Int) - tx.endOffset) % 2 ^ 64).toNat := ⟨_, rfl⟩
  have hread : readFrom file tx.endOffset size = .error (.push 0 (ascii "EOF")) := by
    rw [hk] at hsize
    rw [hk, readFrom, if_neg (by omega), if_neg (by omega), if_neg (by omega)]
  simp only [streamPush, decide_eq_true heof, if_true, ← hsize, hread, bind, Except.bind]

/-- What is sent of a file, from where the reader stands. -/
theorem pushFile_eq {file : Bytes} (hfile : file.length < 2 ^ 63) (clock : Nat → Nat) {n k : Nat}
    {tx : ChnTx} (hk : tx.endOffset = k) (hle : k ≤ file.length) (hn : file.length - k < n) :
    pushFile file clock n tx = chunksOf tx.id k (filePieces (file.drop k)) true := by
  induction n generalizing k tx with
  | zero => omega
  | succ n ih =>
      have hdrop : (file.drop k).length = file.length - k := List.length_drop
      have hpush := streamPush_eq hk hle (by rw [List.length_take]; omega) (clock n) rfl
      rcases hpush with ⟨tx', hpush, htx'⟩
      rw [pushFile, filePieces, hpush]
      by_cases hlast : (file.drop k).length ≤ STREAM_READ_BLOCK
      · rw [List.take_of_length_le hlast, pieces_of_le hlast, decide_eq_true hlast]
        simp
      · have hpos : (0 : Nat) < STREAM_READ_BLOCK := by decide
        have hmore : STREAM_READ_BLOCK < (file.drop k).length := by omega
        have hlen : ((file.drop k).take STREAM_READ_BLOCK).length = STREAM_READ_BLOCK := by
          rw [List.length_take]
          omega
        have hwrite := chnTxWrite_eq hk (clock n) ((file.drop k).take STREAM_READ_BLOCK) (by omega) false
        rw [decide_eq_false hlast] at htx' ⊢
        rw [← htx'] at hwrite
        have hne := filePieces_ne_nil (file.drop (k + STREAM_READ_BLOCK))
        have hnext := ih (hlen ▸ hwrite.2.1) (by omega) (by omega)
        rw [pieces_of_lt hpos hmore, List.flatMap_cons, List.drop_drop, ← filePieces,
          chunksOf_append _ _ _ hne, flatten_pieces, hlen]
        simp only [Bool.false_eq_true, if_false]
        rw [hnext, hwrite.2.2]

/-! ## Reading chunks back -/

theorem printInt_natCast (n : Nat) : printInt (n : Int) = decimal n := by
  simp [printInt]

/-- The words of a copy command. -/
def copyWords (id : Int) (off size : Nat) (eof : Bool) : List Bytes :=
  [kwCopy, printInt id, printInt ((off % 2 ^ 32 : Nat) : Int), printInt (size : Int)] ++
    if eof then [ascii "*"] else []

theorem line_chunkOf (id : Int) (off : Nat) (data : Bytes) (eof : Bool) :
    (chunkOf id off data eof).line = joinWords (copyWords id off data.length eof) ++ [10] := by
  have hsp : ascii " " = [32] := rfl
  have hstar : ascii " *" = 32 :: ascii "*" := rfl
  cases eof with
  | false =>
      simp only [chunkOf, queryText, chunkParams, copyWords, joinWords, hsp, printInt_natCast]
      simp
  | true =>
      simp only [chunkOf, queryText, chunkParams, copyWords, joinWords, hsp, hstar, printInt_natCast]
      simp

theorem isWord_copyWords (id : Int) (off size : Nat) (eof : Bool) :
    ∀ w ∈ copyWords id off size eof, IsWord w := by
  intro w hw
  simp only [copyWords, List.mem_append, List.mem_cons, List.not_mem_nil, or_false] at hw
  rcases hw with (rfl | rfl | rfl | rfl) | hstar
  · exact ⟨by decide +kernel, by decide +kernel⟩
  · exact isWord_printInt _
  · exact isWord_printInt _
  · exact isWord_printInt _
  · split at hstar
    · rw [List.mem_singleton.1 hstar]
      exact ⟨by decide +kernel, by decide +kernel⟩
    · cases hstar

theorem length_copyWords {id : Int} (hid : -2 ^ 63 ≤ id ∧ id < 2 ^ 63) (off : Nat) {size : Nat}
    (hsize : size < 2 ^ 63) (eof : Bool) :
    (joinWords (copyWords id off size eof)).length < MAX_CMD_LINE := by
  have h1 := length_printInt hid.1 hid.2
  have h2 := @length_printInt ((off % 2 ^ 32 : Nat) : Int) (by omega) (by omega)
  have h3 := @length_printInt (size : Int) (by omega) (by omega)
  have h4 : kwCopy.length = 4 := rfl
  have h5 : (ascii "*").length = 1 := rfl
  have hmax : MAX_CMD_LINE = PATH_MAX + 256 := rfl
  cases eof with
  | false =>
      simp only [copyWords, joinWords, Bool.false_eq_true, if_false, List.append_nil, List.flatMap_cons,
        List.flatMap_nil, List.length_append, List.length_cons]
      omega
  | true =>
      simp only [copyWords, joinWords, if_true, List.cons_append, List.nil_append, List.flatMap_cons,
        List.flatMap_nil, List.length_append, List.length_cons, List.length_nil]
      omega

/-- What the receiver makes of a chunk: the offset comes modulo 2^32. -/
def copyOf (id : Int) (off : Nat) (data : Bytes) (eof : Bool) : Copy :=
  { seq := 0, id := id, offset := ((off % 2 ^ 32 : Nat) : Int), size := data.length, eof := eof
    offset_ge := by omega }

theorem copyOfCmd_eq (d : CmdDef) (id : Int) (off : Nat) {data : Bytes} (hdata : data.length < 2 ^ 63)
    (eof : Bool) (more : List CmdArg) (hmore : more.isEmpty = !eof) :
    copyOfCmd ⟨d, 0, .integer id :: .integer ((off % 2 ^ 32 : Nat) : Int) ::
      .integer (data.length : Int) :: more⟩ = some (copyOf id off data eof) := by
  have hoff : offT ((off % 2 ^ 32 : Nat) : Int) = ((off % 2 ^ 32 : Nat) : Int) :=
    offT_of_fits (by omega) (by omega)
  have hsize : ((data.length : Int) % 2 ^ 64).toNat = data.length := by omega
  simp only [copyOfCmd, copyOf, hoff, hsize, hmore, Bool.not_not]

theorem mdirCmdRead_chunk (server : Bool) {id : Int} (hid : -2 ^ 63 ≤ id ∧ id < 2 ^ 63) (off : Nat)
    {data : Bytes} (hdata : data.length < 2 ^ 63) (eof : Bool) (rest : Bytes) :
    (mdirCmdRead (chnInit server) ((chunkOf id off data eof).line ++ rest)).rest = rest ∧
      (mdirCmdRead (chnInit server) ((chunkOf id off data eof).line ++ rest)).parse.result.toOption.bind
        copyOfCmd = some (copyOf id off data eof) := by
  have hfew : (copyWords id off data.length eof).length < CMD_MAX_ARGS := by
    cases eof <;> simp [copyWords, CMD_MAX_ARGS]
  have hne : copyWords id off data.length eof ≠ [] := by simp [copyWords]
  rw [line_chunkOf, List.append_assoc, List.singleton_append,
    mdirCmdRead_words (isWord_copyWords id off data.length eof) (chnInit server) hne
      (length_copyWords hid off hdata eof) hfew]
  refine ⟨rfl, ?_⟩
  have hseq : isSeq kwCopy = false := by decide
  have hfind : (chnInit server).defs.find? (CmdDef.selects 0 kwCopy) = some copyDef := by
    cases server <;> decide
  have h1 : strtoll (printInt id) = (id, []) := strtoll_printInt hid.1 hid.2
  have h2 : strtoll (printInt ((off % 2 ^ 32 : Nat) : Int)) = (((off % 2 ^ 32 : Nat) : Int), []) :=
    strtoll_printInt (by omega) (by omega)
  have h3 : strtoll (printInt (data.length : Int)) = ((data.length : Int), []) :=
    strtoll_printInt (by omega) (by omega)
  have hint : ∀ {s v}, strtoll s = (v, []) → transcodeArg true s = .ok (.integer v) := by
    intro s v hs
    simp [transcodeArg, hs]
  have hi : ∀ i < 3, copyDef.isInteger i = .ok true := by decide
  have hs : copyDef.isInteger 3 = .ok false := rfl
  -- three arguments, or four with the mark of the end
  cases eof with
  | false =>
      have hsw : swallows copyDef 3 = .ok false := rfl
      have hmin : ¬ 3 < copyDef.nbArgMin := by decide
      simp only [copyWords, Bool.false_eq_true, if_false, List.append_nil, wordToks]
      unfold parseToks
      simp only [hseq, Bool.false_eq_true, if_false, dispatch, hfind, buildToks, List.length_cons,
        List.length_nil, Nat.zero_add, Nat.reduceAdd, hmin, hsw, argTexts, List.map_cons, List.map_nil,
        convert, hi 0 (by decide), hi 1 (by decide), hi 2 (by decide), hint h1, hint h2, hint h3, bind,
        Except.bind, Except.toOption, Option.bind]
      exact copyOfCmd_eq copyDef id off hdata false [] rfl
  | true =>
      have hsw : swallows copyDef 4 = .ok false := rfl
      have hmin : ¬ 4 < copyDef.nbArgMin := by decide
      simp only [copyWords, if_true, List.cons_append, List.nil_append, wordToks]
      unfold parseToks
      simp only [hseq, Bool.false_eq_true, if_false, dispatch, hfind, buildToks, List.length_cons,
        List.length_nil, Nat.zero_add, Nat.reduceAdd, hmin, hsw, argTexts, List.map_cons, List.map_nil,
        convert, hi 0 (by decide), hi 1 (by decide), hi 2 (by decide), hs, hint h1, hint h2, hint h3, bind,
        Except.bind, Except.toOption, Option.bind]
      exact copyOfCmd_eq copyDef id off hdata true _ rfl

/-! ## Writing chunks -/

/-- What `stream_write` makes of a file. -/
def writeAt (file : Bytes) (off : Nat) (data : Bytes) (eof : Bool) : Bytes :=
  let file := if data = [] then file else overwrite 0 file off data
  if eof then ftruncate file (off + data.length) else file

theorem streamWriteFile_natCast (file : Bytes) (off : Nat) (data : Bytes) (eof : Bool) :
    streamWriteFile file (off : Int) data eof = .ok (writeAt file off data eof) := by
  have hneg : ¬ ((off : Int) + (data.length : Nat) < 0) := by omega
  have hlen : ((off : Int) + (data.length : Nat)).toNat = off + data.length := by omega
  unfold streamWriteFile writeAt
  rw [if_neg (by omega), Int.toNat_natCast, hlen]
  cases eof with
  | false => rfl
  | true => simp only [if_true, if_neg hneg]

theorem getElem?_ftruncate {file : Bytes} {n p : Nat} (hp : p < file.length) (hn : p < n) :
    (ftruncate file n)[p]? = file[p]? := by
  have hlt : p < (file.take n).length := by
    rw [List.length_take]
    omega
  rw [ftruncate, List.getElem?_append_left hlt, List.getElem?_take_of_lt hn]

/-- What `stream_write` writes is in the file. -/
theorem getElem?_writeAt_add {file data : Bytes} {off i : Nat} (eof : Bool) (hi : i < data.length) :
    (writeAt file off data eof)[off + i]? = data[i]? := by
  have hne : data ≠ [] := List.ne_nil_of_length_pos (by omega)
  have hlen := length_overwrite 0 file off data
  unfold writeAt
  simp only [if_neg hne]
  split
  · rw [getElem?_ftruncate (by omega) (by omega), getElem?_overwrite_add 0 file data off hi]
  · exact getElem?_overwrite_add 0 file data off hi

/-- A byte of the file that `stream_write` neither changes nor cuts off. -/
theorem getElem?_writeAt_of_eq {file data : Bytes} {off p : Nat} {b : UInt8} {eof : Bool}
    (hb : file[p]? = some b) (hsame : ∀ i, p = off + i → i < data.length → file[p]? = data[i]?)
    (hin : eof = true → p < off + data.length) : (writeAt file off data eof)[p]? = some b := by
  have hp : p < file.length := (List.getElem?_eq_some_iff.1 hb).1
  by_cases hmid : off ≤ p ∧ p < off + data.length
  · obtain ⟨i, rfl⟩ : ∃ i, p = off + i := ⟨p - off, by omega⟩
    have hi : i < data.length := by omega
    rw [getElem?_writeAt_add eof hi, ← hsame i rfl hi, hb]
  · have hfile : (if data = [] then file else overwrite 0 file off data)[p]? = some b := by
      split
      · exact hb
      · rw [getElem?_overwrite_of_lt 0 file data hp (by omega), hb]
    have hlt : p < (if data = [] then file else overwrite 0 file off data).length :=
      (List.getElem?_eq_some_iff.1 hfile).1
    cases eof with
    | true => exact (getElem?_ftruncate hlt (hin rfl)).trans hfile
    | false => exact hfile

/-- A copy command that can be written is registered, and the transfer goes on. -/
theorem serveCopyFile_ok {tx : ChnTx} (hstream : tx.stream ≠ none) {file file' : Bytes} {c : Copy}
    {data : Bytes} (hwrite : streamWriteFile file c.offset data c.eof = .ok file') (ts asks : Nat) :
    ∃ tx', serveCopyFile tx file c data ts asks = .ok (tx', file') ∧ tx'.stream = tx.stream ∧
      tx'.id = tx.id := by
  rcases registerFrag_eq tx c ts asks with ⟨frags, ts', heq⟩
  refine ⟨(registerFrag tx c ts asks).1, ?_, by rw [heq], by rw [heq]⟩
  simp only [serveCopyFile, hwrite, serveCopyTx, Bool.not_true, Bool.false_eq_true, if_false,
    if_neg hstream, Except.map, Except.toOption, Option.getD_some]

/-- The bytes of chunks on a connection. -/
def wireOf (chunks : List Chunk) : Bytes :=
  chunks.flatMap fun c => c.line ++ c.data

/-- The copy commands received for consecutive pieces. -/
def copiesOf (id : Int) (off : Nat) : List Bytes → Bool → List (Copy × Bytes)
  | [], _ => []
  | p :: ps, eof =>
      (copyOf id off p (ps.isEmpty && eof), p) :: copiesOf id (off + p.length) ps eof

/-- The file that they leave. -/
def writePieces (file : Bytes) (off : Nat) : List Bytes → Bool → Bytes
  | [], _ => file
  | p :: ps, eof =>
      writePieces (writeAt file (off % 2 ^ 32) p (ps.isEmpty && eof)) (off + p.length) ps eof

theorem receiveFile_chunksOf (server : Bool) (clock : Nat → Nat) {id : Int}
    (hid : -2 ^ 63 ≤ id ∧ id < 2 ^ 63) {ps : List Bytes} (hps : ∀ p ∈ ps, p.length < 2 ^ 63) {n : Nat}
    (hn : ps.length ≤ n) {tx : ChnTx} (htx : tx.id = id) (hstream : tx.stream ≠ none) (file : Bytes)
    (off : Nat) (eof : Bool) :
    receiveFile server clock n tx file (wireOf (chunksOf id off ps eof)) =
      some (copiesOf id off ps eof, writePieces file off ps eof) := by
  induction ps generalizing n tx file off with
  | nil => cases n <;> rfl
  | cons p ps ih =>
      obtain ⟨n, rfl⟩ : ∃ m, n = m + 1 := ⟨n - 1, by rw [List.length_cons] at hn; omega⟩
      have hp := hps p List.mem_cons_self
      have hwire : wireOf (chunksOf id off (p :: ps) eof) =
          (chunkOf id off p (ps.isEmpty && eof)).line ++
            (p ++ wireOf (chunksOf id (off + p.length) ps eof)) := by
        simp [wireOf, chunksOf, chunkOf]
      have hread := mdirCmdRead_chunk server hid off hp (ps.isEmpty && eof)
        (p ++ wireOf (chunksOf id (off + p.length) ps eof))
      have hne : ¬ wireOf (chunksOf id off (p :: ps) eof) = [] := by
        rw [hwire, line_chunkOf]
        simp
      rcases serveCopyFile_ok hstream (streamWriteFile_natCast file (off % 2 ^ 32) p (ps.isEmpty && eof))
        (c := copyOf id off p (ps.isEmpty && eof)) (clock n) n with ⟨tx', hserve, hstream', hid'⟩
      have hlen : ps.length ≤ n := Nat.le_of_succ_le_succ hn
      have hnext := ih (fun q hq => hps q (List.mem_cons_of_mem _ hq)) hlen (hid'.trans htx)
        (by rw [hstream']; exact hstream)
        (writeAt file (off % 2 ^ 32) p (ps.isEmpty && eof)) (off + p.length)
      have hfound : ¬ ((copyOf id off p (ps.isEmpty && eof)).id ≠ tx.id ∨
          (p ++ wireOf (chunksOf id (off + p.length) ps eof)).length <
            (copyOf id off p (ps.isEmpty && eof)).size) := by
        rw [htx]
        simp [copyOf]
      have hsize : (copyOf id off p (ps.isEmpty && eof)).size = p.length := rfl
      rw [receiveFile, if_neg hne, hwire]
      simp only [hread.1, hread.2]
      rw [if_neg hfound, hsize, List.take_left, List.drop_left, hserve]
      simp only [hnext, Option.map_some]
      rfl

/-! ## The whole transfer -/

theorem map_snd_copiesOf (id : Int) (off : Nat) (ps : List Bytes) (eof : Bool) :
    (copiesOf id off ps eof).map Prod.snd = ps := by
  induction ps generalizing off with
  | nil => rfl
  | cons p ps ih => rw [copiesOf, List.map_cons, ih]

/-- The command for piece `i`. -/
theorem getElem?_copiesOf (id : Int) (off : Nat) (ps : List Bytes) (eof : Bool) (i : Nat) :
    (copiesOf id off ps eof)[i]? = ps[i]?.map fun p =>
      (copyOf id (off + (ps.take i).flatten.length) p (decide (i + 1 = ps.length) && eof), p) := by
  induction ps generalizing off i with
  | nil => rfl
  | cons p ps ih =>
      cases i with
      | zero =>
          have hlast : ps.isEmpty = decide (0 + 1 = (p :: ps).length) := by
            cases ps <;> simp
          rw [copiesOf, List.getElem?_cons_zero, List.getElem?_cons_zero, hlast]
          rfl
      | succ i =>
          rw [copiesOf, List.getElem?_cons_succ, List.getElem?_cons_succ, ih, List.take_succ_cons,
            List.flatten_cons, List.length_append, Nat.add_assoc]
          simp

/-- What is written at the end of what was written before. -/
theorem overwrite_end_of (z : UInt8) (done old w : Bytes) :
    overwrite z (done ++ old) done.length w = done ++ w ++ old.drop w.length := by
  simp [overwrite, ← List.drop_drop]

theorem writeAt_end_of (done old p : Bytes) (eof : Bool) :
    writeAt (done ++ old) done.length p eof = done ++ p ++ if eof then [] else old.drop p.length := by
  have hwrite : (if p = [] then done ++ old else overwrite 0 (done ++ old) done.length p) =
      done ++ p ++ old.drop p.length := by
    split
    · next hnil => simp [hnil]
    · exact overwrite_end_of 0 done old p
  unfold writeAt
  simp only [hwrite]
  cases eof with
  | false => rfl
  | true =>
      have hlen : done.length + p.length = (done ++ p).length := by rw [List.length_append]
      simp only [if_true, ftruncate, hlen]
      rw [List.take_left, Nat.sub_eq_zero_of_le (by simp)]
      simp

/-- Pieces whose offsets fit are written one after the other. -/
theorem writePieces_eq {ps : List Bytes} (hne : ps ≠ []) (done old : Bytes)
    (hfit : done.length + startOfLast ps < 2 ^ 32) :
    writePieces (done ++ old) done.length ps true = done ++ ps.flatten := by
  induction ps generalizing done old with
  | nil => exact absurd rfl hne
  | cons p ps ih =>
      have hoff : done.length % 2 ^ 32 = done.length := Nat.mod_eq_of_lt (by omega)
      rw [writePieces, hoff, writeAt_end_of]
      by_cases hnil : ps = []
      · subst hnil
        simp [writePieces]
      · have hmore : ps.isEmpty = false := by simpa using hnil
        have hstart := startOfLast_append [p] hnil
        simp only [List.singleton_append, List.flatten_cons, List.flatten_nil, List.append_nil] at hstart
        have hnext := ih hnil (done ++ p) (old.drop p.length) (by rw [List.length_append]; omega)
        rw [List.length_append] at hnext
        rw [hmore, Bool.false_and, List.flatten_cons, ← List.append_assoc]
        exact hnext

/-- The data of a file came in order: by chunks of limited size, each at its offset, and the last one
with the end of file. -/
structure InOrder (src : Bytes) (copies : List (Copy × Bytes)) : Prop where
  data : copies.flatMap Prod.snd = src
  small : ∀ c ∈ copies, c.1.size ≤ CHUNK_SIZE ∧ c.2.length = c.1.size
  offsets : ∀ i c, copies[i]? = some c → c.1.offset = (((copies.take i).flatMap Prod.snd).length : Int)
  eof : ∀ i c, copies[i]? = some c → (c.1.eof = true ↔ i + 1 = copies.length)

theorem flatMap_snd_take (copies : List (Copy × Bytes)) (i : Nat) :
    (copies.take i).flatMap Prod.snd = ((copies.map Prod.snd).take i).flatten := by
  rw [List.flatMap_def, List.map_take]

/-- The commands received for the pieces of a file are in order exactly if the last offset fits. -/
theorem inOrder_copiesOf_iff (id : Int) {ps : List Bytes} (hne : ps ≠ [])
    (hsmall : ∀ p ∈ ps, p.length ≤ CHUNK_SIZE) :
    InOrder ps.flatten (copiesOf id 0 ps true) ↔ startOfLast ps < 2 ^ 32 := by
  have hmap := map_snd_copiesOf id 0 ps true
  have hlen : (copiesOf id 0 ps true).length = ps.length := by
    have h := congrArg List.length hmap
    rwa [List.length_map] at h
  constructor
  · intro h
    -- the last command tells its offset modulo 2^32
    rcases exists_startOfLast hne with ⟨ps₁, p, rfl, hstart⟩
    have hget := getElem?_copiesOf id 0 (ps₁ ++ [p]) true ps₁.length
    rw [List.getElem?_concat_length, Option.map_some, List.take_left, hstart, Nat.zero_add] at hget
    have hoff := h.offsets _ _ hget
    rw [flatMap_snd_take, hmap, List.take_left, hstart] at hoff
    have hmod : ((startOfLast (ps₁ ++ [p]) % 2 ^ 32 : Nat) : Int) = startOfLast (ps₁ ++ [p]) := hoff
    omega
  · intro hfit
    refine ⟨?_, fun c hc => ?_, fun i c hc => ?_, fun i c hc => ?_⟩
    · rw [List.flatMap_def, hmap]
    · rcases List.mem_iff_getElem?.1 hc with ⟨i, hi⟩
      rw [getElem?_copiesOf, Option.map_eq_some_iff] at hi
      rcases hi with ⟨p, hp, rfl⟩
      exact ⟨hsmall p (List.mem_of_getElem? hp), rfl⟩
    · have hi := hc
      rw [getElem?_copiesOf, Option.map_eq_some_iff] at hi
      rcases hi with ⟨p, hp, rfl⟩
      rcases List.getElem?_eq_some_iff.1 hp with ⟨hi, hget⟩
      have hsplit : ps = ps.take i ++ p :: ps.drop (i + 1) := by
        rw [← hget, ← List.drop_eq_getElem_cons hi, List.take_append_drop]
      have hle := start_le_startOfLast hsplit
      rw [flatMap_snd_take, hmap]
      simp only [copyOf, Nat.zero_add]
      rw [Nat.mod_eq_of_lt (by omega)]
    · rw [getElem?_copiesOf, Option.map_eq_some_iff] at hc
      rcases hc with ⟨p, hp, rfl⟩
      simp [copyOf, hlen]

/-- The longest file whose last chunk starts before 2^32. -/
def MAX_TRANSFER : Nat := 4294968400

theorem startOfLast_filePieces_lt (file : Bytes) :
    startOfLast (filePieces file) < 2 ^ 32 ↔ file.length ≤ MAX_TRANSFER := by
  rw [startOfLast_filePieces, MAX_TRANSFER]
  -- 2^32 falls in block 429496, between the start of its sixth chunk and the start of the next
  generalize ha : (file.length - 1) / 10000 = a
  rcases Nat.lt_trichotomy a 429496 with hlt | heq | hgt
  · omega
  · subst heq
    omega
  · omega

theorem length_le_wireOf (id : Int) (off : Nat) (ps : List Bytes) (eof : Bool) :
    ps.length ≤ (wireOf (chunksOf id off ps eof)).length := by
  induction ps generalizing off with
  | nil => exact Nat.zero_le _
  | cons p ps ih =>
      have hnext := ih (off + p.length)
      have hline : 0 < (chunkOf id off p (ps.isEmpty && eof)).line.length := by
        rw [line_chunkOf, List.length_append]
        exact Nat.lt_add_left _ (by decide)
      rw [wireOf] at hnext
      rw [wireOf, chunksOf, List.flatMap_cons, List.length_append, List.length_append, List.length_cons]
      omega

/-- What is received of a file that is sent from its start. -/
theorem receiveFile_pushFile (server : Bool) (clock clock' : Nat → Nat) (sender receiver stream : Nat)
    (stream' : Option Nat) (ts ts' : Nat) {id : Int} (hid : -2 ^ 63 ≤ id ∧ id < 2 ^ 63) {src : Bytes}
    (hsrc : src.length < 2 ^ 63) (dest : Bytes) {wire : Bytes}
    (hwire : wire = wireOf (pushFile src clock (src.length + 1) (chnTxCtor sender true id stream' ts))) :
    receiveFile server clock' wire.length (chnTxCtor receiver false id (some stream) ts') dest wire =
      some (copiesOf id 0 (filePieces src) true, writePieces dest 0 (filePieces src) true) := by
  have hstart : (chnTxCtor sender true id stream' ts).endOffset = ((0 : Nat) : Int) := rfl
  have hpush := pushFile_eq hsrc clock hstart (Nat.zero_le _) (Nat.lt_succ_self src.length)
  rw [List.drop_zero] at hpush
  have hlt : ∀ p ∈ filePieces src, p.length < 2 ^ 63 := by
    intro p hp
    have hle := length_le_of_mem_filePieces hp
    have hsize : CHUNK_SIZE = 1400 := rfl
    omega
  have hchunks : wire = wireOf (chunksOf id 0 (filePieces src) true) := by
    rw [hwire, hpush]
    rfl
  have hlen : (filePieces src).length ≤ wire.length := by
    rw [hchunks]
    exact length_le_wireOf id 0 (filePieces src) true
  have htx : (chnTxCtor receiver false id (some stream) ts').id = id := rfl
  have hstream : (chnTxCtor receiver false id (some stream) ts').stream ≠ none := by simp [chnTxCtor]
  have hreceive := receiveFile_chunksOf server clock' hid hlt hlen htx hstream dest 0 true
  rw [← hchunks] at hreceive
  exact hreceive

/-- The commands for a file are in order exactly if the file is not too long. -/
theorem inOrder_filePieces_iff (id : Int) (src : Bytes) :
    InOrder src (copiesOf id 0 (filePieces src) true) ↔ src.length ≤ MAX_TRANSFER := by
  have hiff := inOrder_copiesOf_iff id (filePieces_ne_nil src) fun p hp => length_le_of_mem_filePieces hp
  rwa [flatten_filePieces, startOfLast_filePieces_lt] at hiff

/-- A file that is sent from its start is received as it is, in order and whatever was in the destination
before, exactly if its length is at most `MAX_TRANSFER`. -/
theorem file_transfer_iff (server : Bool) (clock clock' : Nat → Nat) (sender receiver stream : Nat)
    (stream' : Option Nat) (ts ts' : Nat) {id : Int} (hid : -2 ^ 63 ≤ id ∧ id < 2 ^ 63) {src : Bytes}
    (hsrc : src.length < 2 ^ 63) (dest wire : Bytes)
    (hwire : wire = wireOf (pushFile src clock (src.length + 1) (chnTxCtor sender true id stream' ts))) :
    (∃ copies, receiveFile server clock' wire.length (chnTxCtor receiver false id (some stream) ts') dest
        wire = some (copies, src) ∧ InOrder src copies) ↔ src.length ≤ MAX_TRANSFER := by
  have hreceive := receiveFile_pushFile server clock clock' sender receiver stream stream' ts ts' hid hsrc
    dest hwire
  constructor
  · rintro ⟨copies, hr, horder⟩
    rw [hreceive] at hr
    have hcopies := (Prod.mk.inj (Option.some.inj hr)).1
    rw [← hcopies] at horder
    exact (inOrder_filePieces_iff id src).1 horder
  · intro hmax
    have hfit : startOfLast (filePieces src) < 2 ^ 32 := (startOfLast_filePieces_lt src).2 hmax
    have hwritten := writePieces_eq (filePieces_ne_nil src) [] dest (by simpa using hfit)
    simp only [List.nil_append, List.length_nil, flatten_filePieces] at hwritten
    refine ⟨_, ?_, (inOrder_filePieces_iff id src).2 hmax⟩
    rw [hreceive, hwritten]

/-- What is sent of a file of three bytes. -/
def sampleWire : Bytes :=
  ascii "copy 1 0 3 *\n" ++ [1, 2, 3]

theorem file_transfer_sample :
    ∃ copies, receiveFile true (fun _ => 0) sampleWire.length (chnTxCtor 0 false 1 (some 0) 0)
      [7, 7, 7, 7] sampleWire = some (copies, [1, 2, 3]) ∧ InOrder [1, 2, 3] copies := by
  have hwire : sampleWire = wireOf (pushFile [1, 2, 3] (fun _ => 0) 4 (chnTxCtor 0 true 1 none 0)) := by
    decide
  exact (file_transfer_iff true (fun _ => 0) (fun _ => 0) 0 0 0 none 0 0 (by decide) (by decide)
    [7, 7, 7, 7] sampleWire hwire).2 (by decide)

/-- A file one byte longer than what fits. -/
theorem not_file_transfer :
    ¬ ∀ (server : Bool) (clock clock' : Nat → Nat) (sender receiver stream : Nat) (stream' : Option Nat)
      (ts ts' : Nat) (id : Int) (src dest wire : Bytes), -2 ^ 63 ≤ id ∧ id < 2 ^ 63 →
      src.length < 2 ^ 63 →
      wire = wireOf (pushFile src clock (src.length + 1) (chnTxCtor sender true id stream' ts)) →
      ∃ copies, receiveFile server clock' wire.length (chnTxCtor receiver false id (some stream) ts') dest
        wire = some (copies, src) ∧ InOrder src copies := by
  intro h
  obtain ⟨n, hn⟩ : ∃ n, n = MAX_TRANSFER + 1 := ⟨_, rfl⟩
  have hmax : MAX_TRANSFER = 4294968400 := rfl
  have hlen : (List.replicate n (0 : UInt8)).length = n := List.length_replicate
  have hsrc : (List.replicate n (0 : UInt8)).length < 2 ^ 63 := by omega
  rcases h true (fun _ => 0) (fun _ => 0) 0 0 0 none 0 0 1 (List.replicate n 0) [] _ (by decide) hsrc rfl with
    ⟨copies, hr, horder⟩
  rw [receiveFile_pushFile true (fun _ => 0) (fun _ => 0) 0 0 0 none 0 0 (by decide) hsrc [] rfl] at hr
  have hcopies := (Prod.mk.inj (Option.some.inj hr)).1
  rw [← hcopies, inOrder_filePieces_iff] at horder
  omega

end Scambio
