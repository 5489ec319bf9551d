import Scambio.Commons.Disk
import Scambio.Lib.Answer
import Scambio.Lib.Channel

/-!
# Sender — pushing a file onto a connection, and writing it on the other side
(`lib/channel.c`, `lib/stream.c`)

`stream_push` reads the file by blocks and gives each block to `chn_tx_write`, which sends it as copy
commands, each followed by its data.  On the other side `serve_copy` reads the data that follows a
command and has `stream_write` write it to a file.

The transfers are those of a connection without losses, on which no miss is asked for: `serve_miss` does
nothing, so that `retransmit_missed` never has anything to do.
-/

namespace Scambio

open Library

def CHUNK_SIZE : Nat := 1400
def OUT_FRAGS_TIMEOUT : Nat := 1000000
def STREAM_READ_BLOCK : Nat := 10000

def kwWrite : Bytes := ascii "write"
def kwRead : Bytes := ascii "read"
def kwCopy : Bytes := ascii "copy"
def kwSkip : Bytes := ascii "skip"
def kwMiss : Bytes := ascii "miss"
def kwThx : Bytes := ascii "thx"

/-! ## Sending -/

/-- What `send_chunk` writes, how many bytes of the fragment it has sent, and the offset and the end of
file that the line tells. -/
structure Chunk where
  line : Bytes
  data : Bytes
  sent : Nat
  offset : Nat
  eof : Bool
  deriving DecidableEq, Repr

/-- The parameters of a copy command; the offset is an `unsigned`. -/
def chunkParams (id : Int) (offset sent : Nat) (eof : Bool) : Bytes :=
  printInt id ++ ascii " " ++ decimal offset ++ ascii " " ++ decimal sent ++
    if eof then ascii " *" else []

def sendChunk (id : Int) (f : Fragment) (offset : Int) : Chunk :=
  -- a `size_t`
  let left := ((f.endAt - offset) % 2 ^ 64).toNat
  let sent := if left > CHUNK_SIZE then CHUNK_SIZE else left
  let eof := if left > CHUNK_SIZE then false else f.eof
  -- printed with `%u`
  let unsignedOffset := (offset % 2 ^ 32).toNat
  let params := chunkParams id unsignedOffset sent eof
  match f.box with
  | some box =>
      { line := queryText 8 none kwCopy [params] none
        data := slice box (offset - f.start).toNat sent
        sent := sent, offset := unsignedOffset, eof := eof }
  | none =>
      { line := queryText 8 none kwSkip [params] none
        data := [], sent := sent, offset := unsignedOffset, eof := eof }

/-- The loop of `send_all_chunks`, with `n` turns at most. -/
def sendAllChunks (id : Int) (f : Fragment) : Nat → Int → List Chunk
  | 0, _ => []
  | n + 1, offset =>
      let c := sendChunk id f offset
      c :: if offset + c.sent < f.endAt then sendAllChunks id f n (offset + c.sent) else []

/-- `out_frag_ctor`. -/
def outFrag (tx : ChnTx) (ts size : Nat) (box : Option Bytes) (eof : Bool) : Fragment :=
  { ts := ts, box := box, start := tx.endOffset, endAt := offT (tx.endOffset + size), eof := eof }

def timeoutFragments (q : List Fragment) (now timeout : Nat) : List Fragment :=
  q.dropWhile fun f => !decide (now < (f.ts + timeout) % 2 ^ 64)

/-- `chn_tx_write`, up to the wait for the status of the transfer. -/
def chnTxWrite (tx : ChnTx) (now length : Nat) (box : Option Bytes) (eof : Bool) : ChnTx × List Chunk :=
  let f := outFrag tx now length box eof
  ({ tx with
      endOffset := f.endAt
      outFrags := timeoutFragments (tx.outFrags ++ [f]) now OUT_FRAGS_TIMEOUT },
    sendAllChunks tx.id f (length + 1) f.start)

/-- One turn of `stream_push` for a reader: what it sends, and whether that is the end. -/
def streamPush (file : Bytes) (tx : ChnTx) (now : Nat) : Except Err (ChnTx × List Chunk × Bool) := do
  let totsize : Int := file.length
  let eof := decide ((STREAM_READ_BLOCK : Int) + tx.endOffset ≥ totsize)
  let size := if eof then ((totsize - tx.endOffset) % 2 ^ 64).toNat else STREAM_READ_BLOCK
  let box ← readFrom file tx.endOffset size
  let (tx, chunks) := chnTxWrite tx now size (some box) eof
  return (tx, chunks, eof)

/-- The turns of `stream_push` for a reader, up to the end of the file and `n` at most; `clock` gives
the time of each. -/
def pushFile (file : Bytes) (clock : Nat → Nat) : Nat → ChnTx → List Chunk
  | 0, _ => []
  | n + 1, tx =>
      match streamPush file tx (clock n) with
      | .error _ => []
      | .ok (tx, chunks, eof) => chunks ++ if eof then [] else pushFile file clock n tx

/-! ## Receiving -/

/-- A command of the channel with three integers for its first arguments. -/
def integerService (keyword : Bytes) (nbArgMax nbTypes : Nat) (types : List ArgType) : CmdDef :=
  { keyword := keyword, nbArgMin := 3, nbArgMax := nbArgMax, nbTypes := nbTypes, types := types }

def copyDef : CmdDef :=
  integerService kwCopy 4 3 [.integer, .integer, .integer, .string]

/-- The syntax that `chn_init` registers. -/
def chnInit (server : Bool) : CmdSyntax :=
  let common := [copyDef, integerService kwSkip 4 2 [.integer, .integer, .integer],
    integerService kwMiss 3 2 [.integer, .integer, .integer],
    { keyword := kwThx, nbArgMin := 1, nbArgMax := 1, nbTypes := 1, types := [.integer] },
    answRegister kwThx]
  let others :=
    if server then
      [{ keyword := kwWrite, nbArgMin := 1, nbArgMax := 2, nbTypes := 2, types := [.string, .string] },
        stringService kwRead 1, stringService kwQuit 0, stringService kwAuth 1]
    else [answRegister kwWrite, answRegister kwRead]
  (common ++ others).foldl CmdSyntax.register { defs := [], noAnswerIfNoSeqnum := true }

theorem offT_ge (v : Int) : -2 ^ 63 ≤ offT v := by
  rw [offT, Int.bmod_def]
  split <;> omega

/-- What `serve_copy` gets from its arguments. -/
def copyOfCmd (cmd : Cmd) : Option Copy :=
  match cmd.args with
  | .integer id :: .integer offset :: .integer size :: more =>
      some { seq := cmd.seq, id := id, offset := offT offset, size := (size % 2 ^ 64).toNat
             eof := !more.isEmpty, offset_ge := offT_ge offset }
  | _ => none

def ftruncate (file : Bytes) (length : Nat) : Bytes :=
  file.take length ++ List.replicate (length - file.length) 0

/-- `stream_write`, on the file of the stream. -/
def streamWriteFile (file : Bytes) (offset : Int) (data : Bytes) (eof : Bool) : Except Err Bytes :=
  if data ≠ [] ∧ offset < 0 then .error (.push EINVAL (ascii "Cannot write"))
  else
    let file := if data = [] then file else overwrite 0 file offset.toNat data
    if eof then
      if offset + data.length < 0 then .error (.push EINVAL (ascii "truncate stream"))
      else .ok (ftruncate file (offset + data.length).toNat)
    else .ok file

/-- `serve_copy` for a receiver whose stream has a file, once the data is read; all else succeeds. -/
def serveCopyFile (tx : ChnTx) (file : Bytes) (c : Copy) (data : Bytes) (ts asks : Nat) :
    Except Fault (ChnTx × Bytes) :=
  let written := streamWriteFile file c.offset data c.eof
  let env : CopyEnv :=
    { alloc := true, read := true, write := written.map fun _ => (), answered := true, clock := some ts,
      fragAlloc := true, asks := asks, time := 0, thx := none }
  match serveCopyTx tx c env with
  | .error e => .error e
  | .ok (tx, _, _) => .ok (tx, written.toOption.getD file)

/-- The reader thread on what comes for a receiver, until the connection is empty: the copy commands
with their data, and the file they leave. -/
def receiveFile (server : Bool) (clock : Nat → Nat) :
    Nat → ChnTx → Bytes → Bytes → Option (List (Copy × Bytes) × Bytes)
  | 0, _, file, fd => if fd = [] then some ([], file) else none
  | n + 1, tx, file, fd =>
      if fd = [] then some ([], file)
      else
        let r := mdirCmdRead (chnInit server) fd
        match r.parse.result.toOption.bind copyOfCmd with
        | none => none
        | some c =>
            -- a copy for another transfer, or a connection that ends within the data
            if c.id ≠ tx.id ∨ r.rest.length < c.size then none
            else
              let data := r.rest.take c.size
              match serveCopyFile tx file c data (clock n) n with
              | .error _ => none
              | .ok (tx, file) =>
                  (receiveFile server clock n tx file (r.rest.drop c.size)).map fun p =>
                    ((c, data) :: p.1, p.2)

end Scambio
