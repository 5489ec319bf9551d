import Scambio.Lib.Channel
import Scambio.Lib.Folder

/-!
# Stream — named data with readers and a writer (`lib/stream.c`, `lib/channel.c`)

A stream is loaded when a resource is first asked for, and deleted when its last reference goes.  The
file server gives a stream to each transfer that a READ or a WRITE starts: the sender of a READ reads
the stream, the receiver of a WRITE writes it.
-/

namespace Scambio

/-- `struct stream`.  The file is that of the stream, unless it is a real time one. -/
structure Stream where
  addr : Nat
  name : Bytes
  readers : List Nat
  hasWriter : Bool
  count : Int
  file : Option Bytes
  deriving DecidableEq, Repr

/-- An assertion of `lib/stream.c` that does not hold, or a stream that is not loaded. -/
inductive StreamFault
  | readersLeft
  | writerLeft
  | countLeft
  | noWriter
  | notLoaded
  deriving DecidableEq, Repr

/-! ## References -/

/-- The list with another value for the stream of this address. -/
def putStream (streams : List Stream) (st : Stream) : List Stream :=
  streams.map fun s => if s.addr = st.addr then st else s

def findStream (streams : List Stream) (addr : Nat) : Option Stream :=
  streams.find? fun st => st.addr == addr

def streamRef (st : Stream) : Stream :=
  { st with count := st.count + 1 }

/-- `stream_dtor` on a stream of the list. -/
def streamDel (streams : List Stream) (st : Stream) : Except StreamFault (List Stream) :=
  if st.readers ≠ [] then .error .readersLeft
  else if st.hasWriter then .error .writerLeft
  else if 0 < st.count then .error .countLeft
  else .ok (streams.filter fun s => s.addr ≠ st.addr)

def streamUnref (streams : List Stream) (st : Stream) : Except StreamFault (List Stream) :=
  let st := { st with count := st.count - 1 }
  if st.count ≤ 0 then streamDel streams st else .ok (putStream streams st)

/-- `stream_add_writer`. -/
def streamAddWriter (st : Stream) : Except Err Stream :=
  if st.hasWriter then .error (.push 0 (ascii "a stream cannot have more than one writer"))
  else .ok (streamRef { st with hasWriter := true })

def streamRemoveWriter (streams : List Stream) (st : Stream) : Except StreamFault (List Stream) :=
  if st.hasWriter then streamUnref streams { st with hasWriter := false } else .error .noWriter

/-- `stream_add_reader`. -/
def streamAddReader (st : Stream) (tx : Nat) : Stream :=
  streamRef { st with readers := tx :: st.readers }

def streamRemoveReader (streams : List Stream) (st : Stream) (tx : Nat) :
    Except StreamFault (List Stream) :=
  streamUnref streams { st with readers := st.readers.erase tx }

/-! ## The file server -/

/-- The loaded streams and the transfers of all the connections, the last ones first. -/
structure Filed where
  streams : List Stream
  nbStreams : Nat
  txs : List (Nat × ChnTx)
  nbTxs : Nat

def Filed.new : Filed :=
  { streams := [], nbStreams := 0, txs := [], nbTxs := 0 }

/-- What `stream->path` keeps of a name behind the root directory. -/
def pathName (rootLen : Nat) (name : Bytes) : Bytes :=
  name.take (PATH_MAX - 2 - rootLen)

/-- `stream_new`; the file is opened, or created empty. -/
def streamNew (rootLen : Nat) (s : Filed) (name : Bytes) (file : Option Bytes) : Filed × Stream :=
  let st : Stream :=
    { addr := s.nbStreams, name := pathName rootLen name, readers := [], hasWriter := false, count := 1,
      file := file }
  ({ s with streams := st :: s.streams, nbStreams := s.nbStreams + 1 }, st)

/-- `stream_lookup`; `opened` is the file of a stream that is not loaded yet, or nothing if it cannot
be opened. -/
def streamLookup (rootLen : Nat) (s : Filed) (name : Bytes) (opened : Option (Option Bytes)) :
    Except Err (Filed × Stream) :=
  if 46 ∈ name then .error (.push 0 (ascii "Resource not allowed to use '.'"))
  else
    match s.streams.find? fun st => st.name == name with
    | some st =>
        let st := streamRef st
        .ok ({ s with streams := putStream s.streams st }, st)
    | none =>
        match opened with
        | none => .error (.push 0 (ascii "open"))
        | some file => .ok (streamNew rootLen s name file)

/-- `chn_tx_new_sender` and `chn_tx_new_receiver` for connection `cnx`, at a given time. -/
def chnTxNew (s : Filed) (cnx : Nat) (sender : Bool) (id : Int) (st : Stream) (ts : Nat) : Except Err Filed :=
  let tx := chnTxCtor s.nbTxs sender id (some st.addr) ts
  let added := if sender then .ok (streamAddReader st tx.addr) else streamAddWriter st
  match added with
  | .error e => .error e
  | .ok st =>
      .ok { s with streams := putStream s.streams st, txs := (cnx, tx) :: s.txs, nbTxs := s.nbTxs + 1 }

/-- `serve_read_write`, and the status of its answer. -/
def serveReadWrite (rootLen : Nat) (s : Filed) (cnx : Nat) (reader : Bool) (seq : Int) (name : Bytes)
    (opened : Option (Option Bytes)) (clock : Option Nat) : Filed × Int :=
  if seq = -1 then (s, 500)
  else
    match streamLookup rootLen s name opened with
    | .error _ => (s, 500)
    | .ok (s, st) =>
        match clock with
        | none => (s, 500)
        | some ts =>
            match chnTxNew s cnx reader seq st ts with
            | .error _ => (s, 500)
            | .ok s => (s, 200)

/-- `chn_tx_release_stream`, for the streams. -/
def chnTxReleaseStream (streams : List Stream) (tx : ChnTx) : Except StreamFault (List Stream) :=
  match tx.stream with
  | none => .ok streams
  | some addr =>
      match findStream streams addr with
      | none => .error .notLoaded
      | some st =>
          if tx.sender then streamRemoveReader streams st tx.addr else streamRemoveWriter streams st

/-- A transfer gets its status, and releases its stream.  One that is over, or not there, is left as it
is. -/
def finishTx (s : Filed) (addr : Nat) (status : Int) : Except StreamFault Filed :=
  match s.txs.find? fun t => t.2.addr == addr with
  | none => .ok s
  | some (_, tx) =>
      match chnTxSetStatus tx status with
      | .error _ => .ok s
      | .ok tx' => do
          let streams ← chnTxReleaseStream s.streams tx
          return { s with
            streams := streams,
            txs := s.txs.map fun t => if t.2.addr = addr then (t.1, tx') else t }

/-- The loop of `chn_cnx_dtor`: the transfers are deleted one after the other. -/
def delTxs (streams : List Stream) : List (Nat × ChnTx) → Except StreamFault (List Stream)
  | [] => .ok streams
  | t :: ts => do
      let streams ← chnTxReleaseStream streams t.2
      delTxs streams ts

/-- `chn_cnx_dtor`. -/
def closeCnx (s : Filed) (cnx : Nat) : Except StreamFault Filed := do
  let streams ← delTxs s.streams (s.txs.filter fun t => t.1 = cnx)
  return { s with streams := streams, txs := s.txs.filter fun t => t.1 ≠ cnx }

end Scambio
