import Scambio.Lib.Cnx
import Scambio.Lib.Fragments

/-!
# Channel — the commands of a transfer (`lib/channel.c`)

A connection has a list of transfers, the last one first, which the commands designate by the
sequence number of the READ or WRITE that started them.  A transfer stays in the list once it is over:
its status is then set, and it has no stream any more.

Assertions that do not hold, and accesses to what is not there, are the `Fault`s of a handler.
-/

namespace Scambio

open Library

/-- `struct chn_tx`.  Transfers are freed with their connection, so that the rank at which a transfer
was created stands for its address; so does it for streams. -/
structure ChnTx where
  addr : Nat
  id : Int
  sender : Bool
  status : Int
  endOffset : Int
  stream : Option Nat
  outFrags : List Fragment
  inFrags : List Fragment
  ts : Nat
  deriving DecidableEq, Repr

/-- What a sent query is embedded in: the transfer whose `sent_thx` it is, or a `struct command`. -/
inductive QueryOwner
  | thx (tx : Nat)
  | command (write : Bool) (stream : Nat)
  deriving DecidableEq, Repr

structure ChnCnx where
  cnx : Cnx QueryOwner
  txs : List ChnTx

inductive Fault
  /-- `assert(tx->status == 0)`. -/
  | statusSet
  /-- `assert(status != 0)`. -/
  | statusZero
  /-- `stream_write` on the stream of a transfer that has none. -/
  | streamReleased
  /-- A query is inserted in the list where it is already. -/
  | queryTwice
  /-- The query is not embedded in what the handler takes it for. -/
  | downcast
  deriving DecidableEq, Repr

/-- What a handler writes on the connection. -/
inductive ChnSent
  | answer (seq status : Int) (compl : Bytes)
  | miss (text : Bytes)
  | thx (id : Int)
  deriving DecidableEq, Repr

/-! ## Transfers -/

/-- `chn_tx_ctor`. -/
def chnTxCtor (addr : Nat) (sender : Bool) (id : Int) (stream : Option Nat) (ts : Nat) : ChnTx :=
  { addr := addr, id := id, sender := sender, status := 0, endOffset := 0, stream := stream,
    outFrags := [], inFrags := [], ts := ts }

/-- `chn_tx_set_status`; the stream is released. -/
def chnTxSetStatus (tx : ChnTx) (status : Int) : Except Fault ChnTx :=
  if tx.status ≠ 0 then .error .statusSet
  else if status = 0 then .error .statusZero
  else .ok { tx with status := status, stream := none }

/-- `check_in_frags`: what is asked for, and whether it could be written. -/
def checkInFrags (tx : ChnTx) (now writes : Nat) : ChnTx × List Bytes × Bool :=
  match tx.inFrags with
  | [] =>
      -- nothing was received yet
      if wasLongAgo tx.ts now then
        match writes with
        | 0 => (tx, [], false)
        | _ + 1 => ({ tx with ts := now }, [askRetransmit tx.id 0 1], true)
      else (tx, [], true)
  | frags =>
      let r := checkLoop tx.id now writes none 0 frags
      ({ tx with inFrags := r.frags }, r.asked, r.ok)

/-! ## Handlers -/

def findWtx (cnx : ChnCnx) (id : Int) : Option ChnTx :=
  cnx.txs.find? fun tx => tx.sender && tx.id == id

def findRtx (cnx : ChnCnx) (id : Int) : Option ChnTx :=
  cnx.txs.find? fun tx => !tx.sender && tx.id == id

def ChnCnx.update (cnx : ChnCnx) (tx : ChnTx) : ChnCnx :=
  { cnx with txs := cnx.txs.map fun t => if t.addr = tx.addr then tx else t }

/-- The query of the transfer waits for its answer. -/
def ChnCnx.waits (cnx : ChnCnx) (tx : ChnTx) : Bool :=
  cnx.cnx.sentQueries.any fun sq => sq.owner == .thx tx.addr

/-- `mdir_cnx_answer`: the syntax asks for no answer to a command without number. -/
def chnAnswer (seq status : Int) (compl : Bytes) : List ChnSent :=
  if seq = 0 then [] else [.answer seq status compl]

/-- What the system does while `serve_copy` runs: whether the box is allocated, the data read, the
stream written, the answer sent and the fragment allocated; the clock; how many requests for
retransmission can be written, and the outcome for the THX. -/
structure CopyEnv where
  alloc : Bool
  read : Bool
  write : Except Err Unit
  answered : Bool
  clock : Option Nat
  fragAlloc : Bool
  asks : Nat
  time : Int
  thx : Option Err

/-- `in_frag_new`, then `check_in_frags`. -/
def registerFrag (tx : ChnTx) (c : Copy) (ts asks : Nat) : ChnTx × List Bytes × Bool :=
  checkInFrags { tx with inFrags := insertByOffset (inFrag ts c) tx.inFrags } ts asks

/-- `first == last && last->eof && first->start == 0`. -/
def isOver : List Fragment → Bool
  | [f] => f.eof && f.start == 0
  | _ => false

def errorStr : Err → Bytes
  | .push _ str => str
  | .abort assertion => assertion

/-- `serve_copy`, from the transfer found to the check that it is over; the last component says that
it is, and that the peer is to be thanked. -/
def serveCopyTx (tx : ChnTx) (c : Copy) (env : CopyEnv) : Except Fault (ChnTx × List ChnSent × Bool) :=
  if !env.alloc then .ok (tx, chnAnswer c.seq 501 (ascii "Cannot malloc(data)"), false)
  else if !env.read then .ok (tx, chnAnswer c.seq 501 (ascii "Cannot read data"), false)
  else if tx.stream = none then .error .streamReleased
  else
    match env.write with
    | .error e => do
        -- the transfer fails, and the peer is told why
        let tx ← chnTxSetStatus tx 501
        return (tx, chnAnswer c.seq 501 (errorStr e), false)
    | .ok () =>
        let answer := chnAnswer c.seq 200 (ascii "OK")
        if !env.answered then .ok (tx, [], false)
        else
          match env.clock with
          | none => .ok (tx, answer, false)
          | some ts =>
              if !env.fragAlloc then .ok (tx, answer, false)
              else
                -- the fragment is registered, the holes are asked for, and a transfer without holes is thanked
                let (tx, asked, ok) := registerFrag tx c ts env.asks
                .ok (tx, answer ++ asked.map .miss, ok && isOver tx.inFrags)

/-- The THX that ends `serve_copy`. -/
def queryThx (cnx : ChnCnx) (tx : ChnTx) (env : CopyEnv) : Except Fault (ChnCnx × List ChnSent) :=
  match cnxQuery cnx.cnx (.thx tx.addr) env.time env.thx with
  | (q, .error _) => .ok ({ cnx with cnx := q }, [])
  | (q, .ok ()) =>
      if cnx.waits tx then .error .queryTwice else .ok ({ cnx with cnx := q }, [.thx tx.id])

def serveCopy (cnx : ChnCnx) (c : Copy) (env : CopyEnv) : Except Fault (ChnCnx × List ChnSent) :=
  match findRtx cnx c.id with
  | none => .ok (cnx, chnAnswer c.seq 500 (ascii "No such receiving tx id"))
  | some tx => do
      let (tx, sent, finished) ← serveCopyTx tx c env
      let cnx := cnx.update tx
      if finished then
        let (cnx, thx) ← queryThx cnx tx env
        return (cnx, sent ++ thx)
      else return (cnx, sent)

def serveThx (cnx : ChnCnx) (seq id : Int) : Except Fault (ChnCnx × List ChnSent) :=
  match findWtx cnx id with
  | none => .ok (cnx, chnAnswer seq 500 (ascii "No such sending tx id"))
  | some tx => do
      let tx ← chnTxSetStatus tx 200
      return (cnx.update tx, chnAnswer seq 200 (ascii "Ok"))

/-- `finalize_thx`, at a given time. -/
def finalizeThx (cnx : ChnCnx) (seq status time : Int) : Except Fault (ChnCnx × List ChnSent) :=
  match cnxQueryRetrieve cnx.cnx time seq with
  | (q, .error _) => .ok ({ cnx with cnx := q }, [])
  | (q, .ok sq) =>
      match sq.owner with
      | .command _ _ => .error .downcast
      | .thx addr =>
          match cnx.txs.find? fun tx => tx.addr == addr with
          | none => .error .downcast
          | some tx => do
              -- the status is an int
              let tx ← chnTxSetStatus tx (Int.bmod status (2 ^ 32))
              return (ChnCnx.update { cnx with cnx := q } tx, [])

/-- `LIST_INSERT_HEAD(&cnx->txs, tx, cnx_entry)` for a transfer that could be constructed. -/
def ChnCnx.addTx (cnx : ChnCnx) (sender : Bool) (id : Int) (stream : Option Nat) (ts : Nat) : ChnCnx :=
  { cnx with txs := chnTxCtor cnx.txs.length sender id stream ts :: cnx.txs }

/-- `finalize_txstart`, at a given time; `ctor` is the clock if the transfer can be constructed. -/
def finalizeTxstart (cnx : ChnCnx) (seq status time : Int) (ctor : Option Nat) :
    Except Fault (ChnCnx × List ChnSent) :=
  match cnxQueryRetrieve cnx.cnx time seq with
  | (q, .error _) => .ok ({ cnx with cnx := q }, [])
  | (q, .ok sq) =>
      match sq.owner with
      -- `DOWNCAST` does not look at whose query it is
      | .thx _ => .error .downcast
      | .command write stream =>
          let cnx := { cnx with cnx := q }
          match ctor with
          | some ts =>
              -- the status is an `int`
              if Int.bmod status (2 ^ 32) = 200 then .ok (cnx.addTx write seq (some stream) ts, [])
              else .ok (cnx, [])
          | none => .ok (cnx, [])

end Scambio
