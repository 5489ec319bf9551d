import Scambio.Lib.Reception

/-!
# LifeCycle — the end of a transfer, once only

`ChnEvent` is what can happen to a connection: the commands and answers that the peer sends, the
transfers that start, and the checks of `tx_checker`.  Nothing tells a transfer that is over from
another one when a command comes for it, and nothing tells the query of a THX from another when an
answer comes.  `life_cycle_iff` says which events go wrong for these reasons, in any run.
-/

namespace Scambio

/-- What happens to a connection. -/
inductive ChnEvent
  | copy (c : Copy) (env : CopyEnv)
  | thx (seq id : Int)
  | thxAnswer (seq status time : Int)
  | txAnswer (seq status time : Int) (ctor : Option Nat)
  /-- A READ or a WRITE is served. -/
  | served (sender : Bool) (id : Int) (stream ts : Nat)
  /-- A READ or a WRITE is sent. -/
  | command (write : Bool) (stream : Nat) (time : Int) (written : Option Err)
  /-- `tx_checker` checks the fragments of a transfer. -/
  | check (addr now writes : Nat)
  /-- The connection becomes usable, or is not any more. -/
  | link (usable : Bool)

def ChnCnx.new (usable : Bool) : ChnCnx :=
  { cnx := { usable := usable, nextSeq := 1, sentQueries := [] }, txs := [] }

def chnStep (cnx : ChnCnx) : ChnEvent → Except Fault ChnCnx
  | .copy c env => (serveCopy cnx c env).map Prod.fst
  | .thx seq id => (serveThx cnx seq id).map Prod.fst
  | .thxAnswer seq status time => (finalizeThx cnx seq status time).map Prod.fst
  | .txAnswer seq status time ctor => (finalizeTxstart cnx seq status time ctor).map Prod.fst
  | .served sender id stream ts => .ok (cnx.addTx sender id (some stream) ts)
  | .command write stream time written =>
      .ok { cnx with cnx := (cnxQuery cnx.cnx (.command write stream) time written).1 }
  | .check addr now writes =>
      .ok { cnx with
        txs := cnx.txs.map fun tx => if tx.addr = addr then (checkInFrags tx now writes).1 else tx }
  | .link usable => .ok { cnx with cnx := { cnx.cnx with usable := usable } }

def chnRun (cnx : ChnCnx) : List ChnEvent → Except Fault ChnCnx
  | [] => .ok cnx
  | e :: es =>
      match chnStep cnx e with
      | .error f => .error f
      | .ok cnx => chnRun cnx es

/-- The faults of a transfer that ends twice; and those of an answer that is taken for the answer to another
query, when what is no transfer is given a status or a stream. -/
def Fault.ofLifeCycle (f : Fault) : Prop :=
  f = .statusSet ∨ f = .streamReleased ∨ f = .queryTwice ∨ f = .downcast

/-- With the fragment of a copy command, those of the receiver are over. -/
def CompletesWith (tx : ChnTx) (c : Copy) (env : CopyEnv) : Prop :=
  env.write = .ok () ∧ env.answered = true ∧ env.fragAlloc = true ∧
    ∃ ts, env.clock = some ts ∧ (registerFrag tx c ts env.asks).2.2 = true ∧
      isOver (registerFrag tx c ts env.asks).1.inFrags = true

/-- What comes is not for a transfer that is over already, nor for another query.
- a copy command finds a receiver without status, and does not complete it while its THX waits;
- a THX finds a sender without status;
- an answer to a THX finds no query, or the one of a THX, with a receiver without status;
- an answer to a READ or a WRITE finds no query, or one of these. -/
def Orderly (cnx : ChnCnx) : ChnEvent → Prop
  | .copy c env => env.alloc = true → env.read = true → ∀ tx, findRtx cnx c.id = some tx →
      tx.status = 0 ∧
        (cnx.waits tx = true → cnx.cnx.usable = true → env.thx = none → ¬ CompletesWith tx c env)
  | .thx _ id => ∀ tx, findWtx cnx id = some tx → tx.status = 0
  | .thxAnswer seq _ time => ∀ q sq, cnxQueryRetrieve cnx.cnx time seq = (q, .ok sq) →
      ∃ addr tx, sq.owner = .thx addr ∧ (cnx.txs.find? fun tx => tx.addr == addr) = some tx ∧ tx.status = 0
  | .txAnswer seq _ time _ => ∀ q sq, cnxQueryRetrieve cnx.cnx time seq = (q, .ok sq) →
      ∃ write stream, sq.owner = .command write stream
  | _ => True

/-- Each event of the run is orderly when it happens. -/
def OrderlyRun (cnx : ChnCnx) : List ChnEvent → Prop
  | [] => True
  | e :: es => Orderly cnx e ∧ ∀ cnx', chnStep cnx e = .ok cnx' → OrderlyRun cnx' es

/-- A transfer has a stream until it is over. -/
def ChnTx.Streamed (tx : ChnTx) : Prop :=
  tx.status = 0 ↔ tx.stream ≠ none

def ChnCnx.Streamed (cnx : ChnCnx) : Prop :=
  ∀ tx ∈ cnx.txs, tx.Streamed

/-! ## Streams and statuses -/

theorem chnTxSetStatus_streamed {tx tx' : ChnTx} {status : Int}
    (h : chnTxSetStatus tx status = .ok tx') : tx'.Streamed := by
  rcases chnTxSetStatus_ok h with ⟨-, hne, rfl⟩
  exact ⟨fun h0 => absurd h0 hne, fun hnone => absurd rfl hnone⟩

/-- A check changes nothing but the fragments and the time of the last request. -/
theorem checkInFrags_eq (tx : ChnTx) (now writes : Nat) :
    ∃ frags ts, (checkInFrags tx now writes).1 = { tx with inFrags := frags, ts := ts } := by
  unfold checkInFrags
  split
  · split
    · cases writes with
      | zero => exact ⟨tx.inFrags, tx.ts, rfl⟩
      | succ writes => exact ⟨tx.inFrags, now, rfl⟩
    · exact ⟨tx.inFrags, tx.ts, rfl⟩
  · exact ⟨_, tx.ts, rfl⟩

theorem checkInFrags_streamed {tx : ChnTx} (h : tx.Streamed) (now writes : Nat) :
    (checkInFrags tx now writes).1.Streamed := by
  rcases checkInFrags_eq tx now writes with ⟨frags, ts, heq⟩
  rw [heq]
  exact h

theorem registerFrag_eq (tx : ChnTx) (c : Copy) (ts asks : Nat) :
    ∃ frags ts', (registerFrag tx c ts asks).1 = { tx with inFrags := frags, ts := ts' } := by
  rcases checkInFrags_eq { tx with inFrags := insertByOffset (inFrag ts c) tx.inFrags } ts asks with
    ⟨frags, ts', heq⟩
  exact ⟨frags, ts', heq⟩

theorem ChnCnx.Streamed.update {cnx : ChnCnx} (h : cnx.Streamed) {tx : ChnTx} (htx : tx.Streamed) :
    (cnx.update tx).Streamed := by
  intro t ht
  rcases List.mem_map.1 ht with ⟨t', ht', rfl⟩
  split
  · exact htx
  · exact h t' ht'

theorem ChnCnx.Streamed.addTx {cnx : ChnCnx} (h : cnx.Streamed) (sender : Bool) (id : Int)
    (stream ts : Nat) : (cnx.addTx sender id (some stream) ts).Streamed := by
  intro t ht
  rcases List.mem_cons.1 ht with rfl | ht
  · exact ⟨fun _ => by simp [chnTxCtor], fun _ => rfl⟩
  · exact h t ht

theorem findRtx_mem {cnx : ChnCnx} {id : Int} {tx : ChnTx} (h : findRtx cnx id = some tx) :
    tx ∈ cnx.txs :=
  List.mem_of_find?_eq_some h

/-! ## Copies -/

section Copy

variable {tx : ChnTx} {c : Copy} {env : CopyEnv}

/-- The data of the command could not be read. -/
theorem serveCopyTx_unread (h : ¬ (env.alloc = true ∧ env.read = true)) :
    ∃ sent, serveCopyTx tx c env = .ok (tx, sent, false) := by
  unfold serveCopyTx
  cases halloc : env.alloc with
  | false => exact ⟨_, rfl⟩
  | true =>
      cases hread : env.read with
      | false => exact ⟨_, rfl⟩
      | true => exact absurd ⟨halloc, hread⟩ h

theorem serveCopyTx_released (halloc : env.alloc = true) (hread : env.read = true)
    (h : tx.stream = none) : serveCopyTx tx c env = .error .streamReleased := by
  simp [serveCopyTx, halloc, hread, h]

/-- The data is read, for a receiver that is not over. -/
theorem serveCopyTx_running (halloc : env.alloc = true) (hread : env.read = true)
    (hstatus : tx.status = 0) (hstream : tx.stream ≠ none) :
    ∃ tx' sent finished, serveCopyTx tx c env = .ok (tx', sent, finished) ∧ tx'.Streamed ∧
      tx'.addr = tx.addr ∧ (finished = true ↔ CompletesWith tx c env) := by
  have hsame : tx.Streamed := ⟨fun _ => hstream, fun _ => hstatus⟩
  simp only [serveCopyTx, halloc, hread, Bool.not_true, Bool.false_eq_true, if_false, if_neg hstream]
  cases hwrite : env.write with
  | error e =>
      have hset : chnTxSetStatus tx 501 = .ok { tx with status := 501, stream := none } := by
        simp [chnTxSetStatus, hstatus]
      rw [hset]
      refine ⟨_, _, _, rfl, chnTxSetStatus_streamed hset, rfl, ?_⟩
      simp [CompletesWith, hwrite]
  | ok u =>
      cases hanswered : env.answered with
      | false => exact ⟨_, _, _, rfl, hsame, rfl, by simp [CompletesWith, hanswered]⟩
      | true =>
          cases hclock : env.clock with
          | none => exact ⟨_, _, _, rfl, hsame, rfl, by simp [CompletesWith, hclock]⟩
          | some ts =>
              cases halloc' : env.fragAlloc with
              | false => exact ⟨_, _, _, rfl, hsame, rfl, by simp [CompletesWith, halloc']⟩
              | true =>
                  rcases registerFrag_eq tx c ts env.asks with ⟨frags, ts', heq⟩
                  refine ⟨_, _, _, rfl, ?_, ?_, ?_⟩
                  · rw [heq]
                    exact hsame
                  · rw [heq]
                  · simp [CompletesWith, hwrite, hanswered, hclock, halloc']

/-- The THX of a receiver is sent twice if the first one waits. -/
theorem queryThx_cases (cnx : ChnCnx) (tx : ChnTx) (env : CopyEnv) :
    (cnx.waits tx = true ∧ cnx.cnx.usable = true ∧ env.thx = none ∧
      queryThx cnx tx env = .error .queryTwice) ∨
    ((cnx.waits tx = true → cnx.cnx.usable = true → env.thx = none → False) ∧
      ∃ q sent, queryThx cnx tx env = .ok ({ cnx with cnx := q }, sent)) := by
  unfold queryThx cnxQuery
  cases husable : cnx.cnx.usable with
  | false => exact .inr ⟨by simp, _, _, rfl⟩
  | true =>
      cases hthx : env.thx with
      | some e => exact .inr ⟨by simp, _, _, rfl⟩
      | none =>
          cases hwaits : cnx.waits tx with
          | true => exact .inl ⟨rfl, rfl, rfl, rfl⟩
          | false => exact .inr ⟨by simp, _, _, rfl⟩

theorem serveCopy_found {cnx : ChnCnx} (h : findRtx cnx c.id = some tx) :
    serveCopy cnx c env =
      (serveCopyTx tx c env).bind fun r =>
        if r.2.2 then (queryThx (cnx.update r.1) r.1 env).bind fun q => .ok (q.1, r.2.1 ++ q.2)
        else .ok (cnx.update r.1, r.2.1) := by
  unfold serveCopy
  rw [h]
  rfl

/-- A copy command is served and leaves each transfer with its stream, or goes wrong because its
receiver is over. -/
theorem serveCopy_life {cnx : ChnCnx} (hs : cnx.Streamed) (c : Copy) (env : CopyEnv) :
    (Orderly cnx (.copy c env) ∧ ∃ cnx' sent, serveCopy cnx c env = .ok (cnx', sent) ∧ cnx'.Streamed) ∨
      (¬ Orderly cnx (.copy c env) ∧ ∃ f, serveCopy cnx c env = .error f ∧ f.ofLifeCycle) := by
  cases hfind : findRtx cnx c.id with
  | none =>
      have hserve : serveCopy cnx c env =
          .ok (cnx, chnAnswer c.seq 500 (ascii "No such receiving tx id")) := by
        rw [serveCopy, hfind]
      refine .inl ⟨fun _ _ tx htx => ?_, _, _, hserve, hs⟩
      rw [hfind] at htx
      cases htx
  | some tx =>
      have htx := hs tx (findRtx_mem hfind)
      rw [serveCopy_found hfind]
      by_cases hread : env.alloc = true ∧ env.read = true
      · by_cases hstatus : tx.status = 0
        · have hstream := htx.1 hstatus
          rcases serveCopyTx_running (c := c) hread.1 hread.2 hstatus hstream with
            ⟨tx', sent, finished, hserve, hstreamed, haddr, hover⟩
          rw [hserve]
          have hupdate := hs.update hstreamed
          have hwaits : (cnx.update tx').waits tx' = cnx.waits tx := by
            simp only [ChnCnx.waits, ChnCnx.update, haddr]
          cases finished with
          | false =>
              refine .inl ⟨fun _ _ t ht => ?_, _, _, rfl, hupdate⟩
              rw [hfind] at ht
              cases ht
              exact ⟨hstatus, fun _ _ _ hc => absurd (hover.2 hc) (by simp)⟩
          | true =>
              -- the last byte is here and the THX is asked for, a fault where it was asked for before
              rcases queryThx_cases (cnx.update tx') tx' env with ⟨hw, hu, hthx, hq⟩ | ⟨hno, q, s, hq⟩
              · refine .inr ⟨fun hord => ?_, .queryTwice, ?_, .inr (.inr (.inl rfl))⟩
                · rw [hwaits] at hw
                  exact (hord hread.1 hread.2 tx hfind).2 hw hu hthx (hover.1 rfl)
                · simp only [Except.bind, if_true, hq]
              · refine .inl ⟨fun _ _ t ht => ?_, { cnx.update tx' with cnx := q }, sent ++ s, ?_, hupdate⟩
                · rw [hfind] at ht
                  cases ht
                  rw [hwaits] at hno
                  exact ⟨hstatus, fun hw hu hthx _ => hno hw hu hthx⟩
                · simp only [Except.bind, if_true, hq]
        · -- the receiver is over: its stream is gone
          have hnone : tx.stream = none := by
            by_contra hne
            exact hstatus (htx.2 hne)
          rw [serveCopyTx_released hread.1 hread.2 hnone]
          refine .inr ⟨fun hord => hstatus (hord hread.1 hread.2 tx hfind).1, _, rfl, .inr (.inl rfl)⟩
      · rcases @serveCopyTx_unread tx c env hread with ⟨sent, hserve⟩
        rw [hserve]
        exact .inl ⟨fun ha hr => absurd ⟨ha, hr⟩ hread, _, _, rfl, hs.update htx⟩

end Copy

/-! ## Ends of transfers -/

theorem chnTxSetStatus_cases (tx : ChnTx) (status : Int) :
    (tx.status ≠ 0 ∧ chnTxSetStatus tx status = .error .statusSet) ∨
      (tx.status = 0 ∧ status = 0 ∧ chnTxSetStatus tx status = .error .statusZero) ∨
      (tx.status = 0 ∧ ∃ tx', chnTxSetStatus tx status = .ok tx' ∧ tx'.Streamed) := by
  by_cases hset : tx.status = 0
  · by_cases hzero : status = 0
    · exact .inr (.inl ⟨hset, hzero, by simp [chnTxSetStatus, hset, hzero]⟩)
    · have hok : chnTxSetStatus tx status = .ok { tx with status := status, stream := none } := by
        simp [chnTxSetStatus, hset, hzero]
      exact .inr (.inr ⟨hset, _, hok, chnTxSetStatus_streamed hok⟩)
  · exact .inl ⟨hset, by simp [chnTxSetStatus, hset]⟩

theorem serveThx_life {cnx : ChnCnx} (hs : cnx.Streamed) (seq id : Int) :
    (Orderly cnx (.thx seq id) ∧ ∃ cnx' sent, serveThx cnx seq id = .ok (cnx', sent) ∧ cnx'.Streamed) ∨
      (¬ Orderly cnx (.thx seq id) ∧ ∃ f, serveThx cnx seq id = .error f ∧ f.ofLifeCycle) := by
  cases hfind : findWtx cnx id with
  | none =>
      have hserve : serveThx cnx seq id =
          .ok (cnx, chnAnswer seq 500 (ascii "No such sending tx id")) := by
        rw [serveThx, hfind]
      refine .inl ⟨fun tx htx => ?_, _, _, hserve, hs⟩
      rw [hfind] at htx
      cases htx
  | some tx =>
      have hserve : serveThx cnx seq id = (chnTxSetStatus tx 200).bind fun t =>
          .ok (cnx.update t, chnAnswer seq 200 (ascii "Ok")) := by
        rw [serveThx, hfind]
        rfl
      rw [hserve]
      rcases chnTxSetStatus_cases tx 200 with ⟨hset, hr⟩ | ⟨-, hzero, -⟩ | ⟨hset, tx', hr, htx'⟩
      · rw [hr]
        exact .inr ⟨fun hord => hset (hord tx hfind), _, rfl, .inl rfl⟩
      · exact absurd hzero (by decide)
      · rw [hr]
        refine .inl ⟨fun t ht => ?_, _, _, rfl, hs.update htx'⟩
        rw [hfind] at ht
        cases ht
        exact hset

/-- The answer to a THX may also carry no status. -/
theorem finalizeThx_life {cnx : ChnCnx} (hs : cnx.Streamed) (seq status time : Int) :
    (Orderly cnx (.thxAnswer seq status time) ∧
      ((∃ cnx' sent, finalizeThx cnx seq status time = .ok (cnx', sent) ∧ cnx'.Streamed) ∨
        ∃ f, finalizeThx cnx seq status time = .error f ∧ ¬ f.ofLifeCycle)) ∨
      (¬ Orderly cnx (.thxAnswer seq status time) ∧
        ∃ f, finalizeThx cnx seq status time = .error f ∧ f.ofLifeCycle) := by
  rcases hr : cnxQueryRetrieve cnx.cnx time seq with ⟨q, e | sq⟩
  · -- no query has this number
    refine .inl ⟨fun q' sq hq' => ?_, .inl ⟨{ cnx with cnx := q }, [], ?_, hs⟩⟩
    · rw [hr] at hq'
      cases hq'
    · simp only [finalizeThx, hr]
  · have hord : Orderly cnx (.thxAnswer seq status time) ↔
        ∃ addr tx, sq.owner = .thx addr ∧ (cnx.txs.find? fun tx => tx.addr == addr) = some tx ∧ tx.status = 0 := by
      refine ⟨fun h => h q sq hr, fun h q' sq' hq' => ?_⟩
      rw [hr] at hq'
      cases hq'
      exact h
    rw [hord]
    cases howner : sq.owner with
    | command write stream =>
        -- the query is no part of a transfer
        refine .inr ⟨?_, .downcast, ?_, .inr (.inr (.inr rfl))⟩
        · rintro ⟨addr, tx, hthx, -⟩
          cases hthx
        · simp only [finalizeThx, hr, howner]
    | thx addr =>
        cases hfind : cnx.txs.find? fun tx => tx.addr == addr with
        | none =>
            refine .inr ⟨?_, .downcast, ?_, .inr (.inr (.inr rfl))⟩
            · rintro ⟨addr', tx, hthx, htx, -⟩
              cases hthx
              rw [hfind] at htx
              cases htx
            · simp only [finalizeThx, hr, howner, hfind]
        | some tx =>
            have hserve : finalizeThx cnx seq status time =
                (chnTxSetStatus tx (Int.bmod status (2 ^ 32))).bind fun t =>
                  .ok (ChnCnx.update { cnx with cnx := q } t, []) := by
              simp only [finalizeThx, hr, howner, hfind]
              rfl
            rw [hserve]
            have hkept : ChnCnx.Streamed { cnx with cnx := q } := hs
            rcases chnTxSetStatus_cases tx (Int.bmod status (2 ^ 32)) with
              ⟨hset, hres⟩ | ⟨hset, -, hres⟩ | ⟨hset, tx', hres, htx'⟩
            · rw [hres]
              refine .inr ⟨?_, _, rfl, .inl rfl⟩
              rintro ⟨addr', tx', hthx, htx', hzero⟩
              cases hthx
              rw [hfind] at htx'
              cases htx'
              exact hset hzero
            · rw [hres]
              exact .inl ⟨⟨addr, tx, rfl, hfind, hset⟩, .inr ⟨_, rfl, by simp [Fault.ofLifeCycle]⟩⟩
            · rw [hres]
              exact .inl ⟨⟨addr, tx, rfl, hfind, hset⟩, .inl ⟨_, _, rfl, hkept.update htx'⟩⟩

theorem finalizeTxstart_life {cnx : ChnCnx} (hs : cnx.Streamed) (seq status time : Int)
    (ctor : Option Nat) :
    (Orderly cnx (.txAnswer seq status time ctor) ∧
      ∃ cnx' sent, finalizeTxstart cnx seq status time ctor = .ok (cnx', sent) ∧ cnx'.Streamed) ∨
      (¬ Orderly cnx (.txAnswer seq status time ctor) ∧
        ∃ f, finalizeTxstart cnx seq status time ctor = .error f ∧ f.ofLifeCycle) := by
  unfold finalizeTxstart
  rcases hr : cnxQueryRetrieve cnx.cnx time seq with ⟨q, e | sq⟩
  · refine .inl ⟨fun q' sq hq' => ?_, _, _, rfl, hs⟩
    rw [hr] at hq'
    cases hq'
  · have hord : Orderly cnx (.txAnswer seq status time ctor) ↔ ∃ write stream, sq.owner = .command write stream := by
      refine ⟨fun h => h q sq hr, fun h q' sq' hq' => ?_⟩
      rw [hr] at hq'
      cases hq'
      exact h
    rw [hord]
    have hkept : ChnCnx.Streamed { cnx with cnx := q } := hs
    cases howner : sq.owner with
    | thx addr =>
        refine .inr ⟨?_, .downcast, by simp only [howner], .inr (.inr (.inr rfl))⟩
        rintro ⟨write, stream, hcommand⟩
        cases hcommand
    | command write stream =>
        refine .inl ⟨⟨write, stream, rfl⟩, ?_⟩
        simp only [howner]
        cases ctor with
        | none => exact ⟨_, _, rfl, hkept⟩
        | some ts =>
            simp only
            split
            · exact ⟨_, _, rfl, hkept.addTx write seq stream ts⟩
            · exact ⟨_, _, rfl, hkept⟩

/-! ## Runs -/

/-- One event: it goes wrong for a transfer that is over, or another query, exactly if it is not orderly. -/
theorem chnStep_life {cnx : ChnCnx} (hs : cnx.Streamed) (e : ChnEvent) :
    (Orderly cnx e ∧ ((∃ cnx', chnStep cnx e = .ok cnx' ∧ cnx'.Streamed) ∨
        ∃ f, chnStep cnx e = .error f ∧ ¬ f.ofLifeCycle)) ∨
      (¬ Orderly cnx e ∧ ∃ f, chnStep cnx e = .error f ∧ f.ofLifeCycle) := by
  cases e with
  | copy c env =>
      rcases serveCopy_life hs c env with ⟨hord, cnx', sent, hr, hs'⟩ | ⟨hord, f, hr, hf⟩
      · exact .inl ⟨hord, .inl ⟨cnx', by rw [chnStep, hr]; rfl, hs'⟩⟩
      · exact .inr ⟨hord, f, by rw [chnStep, hr]; rfl, hf⟩
  | thx seq id =>
      rcases serveThx_life hs seq id with ⟨hord, cnx', sent, hr, hs'⟩ | ⟨hord, f, hr, hf⟩
      · exact .inl ⟨hord, .inl ⟨cnx', by rw [chnStep, hr]; rfl, hs'⟩⟩
      · exact .inr ⟨hord, f, by rw [chnStep, hr]; rfl, hf⟩
  | thxAnswer seq status time =>
      rcases finalizeThx_life hs seq status time with
        ⟨hord, ⟨cnx', sent, hr, hs'⟩ | ⟨f, hr, hf⟩⟩ | ⟨hord, f, hr, hf⟩
      · exact .inl ⟨hord, .inl ⟨cnx', by rw [chnStep, hr]; rfl, hs'⟩⟩
      · exact .inl ⟨hord, .inr ⟨f, by rw [chnStep, hr]; rfl, hf⟩⟩
      · exact .inr ⟨hord, f, by rw [chnStep, hr]; rfl, hf⟩
  | txAnswer seq status time ctor =>
      rcases finalizeTxstart_life hs seq status time ctor with ⟨hord, cnx', sent, hr, hs'⟩ | ⟨hord, f, hr, hf⟩
      · exact .inl ⟨hord, .inl ⟨cnx', by rw [chnStep, hr]; rfl, hs'⟩⟩
      · exact .inr ⟨hord, f, by rw [chnStep, hr]; rfl, hf⟩
  | served sender id stream ts => exact .inl ⟨trivial, .inl ⟨_, rfl, hs.addTx sender id stream ts⟩⟩
  | command write stream time written => exact .inl ⟨trivial, .inl ⟨_, rfl, hs⟩⟩
  | check addr now writes =>
      refine .inl ⟨trivial, .inl ⟨_, rfl, fun t ht => ?_⟩⟩
      rcases List.mem_map.1 ht with ⟨t', ht', rfl⟩
      split
      · exact checkInFrags_streamed (hs t' ht') now writes
      · exact hs t' ht'
  | link usable => exact .inl ⟨trivial, .inl ⟨_, rfl, hs⟩⟩

theorem chnRun_life {cnx : ChnCnx} (hs : cnx.Streamed) (es : List ChnEvent) :
    (∀ f, chnRun cnx es = .error f → ¬ f.ofLifeCycle) ↔ OrderlyRun cnx es := by
  induction es generalizing cnx with
  | nil =>
      refine ⟨fun _ => trivial, fun _ f hf => ?_⟩
      cases hf
  | cons e es ih =>
      rw [OrderlyRun, chnRun]
      rcases chnStep_life hs e with ⟨hord, ⟨cnx', hr, hs'⟩ | ⟨f, hr, hf⟩⟩ | ⟨hord, f, hr, hf⟩
      · rw [hr]
        simp only [ih hs', Except.ok.injEq, forall_eq', hord, true_and]
      · rw [hr]
        refine ⟨fun _ => ⟨hord, fun c hc => by cases hc⟩, fun _ f' hf' => ?_⟩
        cases hf'
        exact hf
      · rw [hr]
        exact ⟨fun h => absurd hf (h f rfl), fun h => absurd h.1 hord⟩

/-- In any run of a connection, no transfer gets a second status, no THX is sent while the one before
waits, no stream is written once it is released and no query is taken for the one of a transfer, exactly if
nothing comes for a transfer that is over and answers come for the queries of their kind. -/
theorem life_cycle_iff (usable : Bool) (es : List ChnEvent) :
    (∀ f, chnRun (ChnCnx.new usable) es = .error f → ¬ f.ofLifeCycle) ↔
      OrderlyRun (ChnCnx.new usable) es :=
  chnRun_life (fun _ htx => absurd htx List.not_mem_nil) es

/-- A file is sent, and thanked twice. -/
theorem not_life_cycle :
    ¬ ∀ (usable : Bool) (es : List ChnEvent) (f : Fault),
      chnRun (ChnCnx.new usable) es = .error f → ¬ f.ofLifeCycle := by
  intro h
  exact h true [.served true 5 0 0, .thx 1 5, .thx 2 5] .statusSet rfl (.inl rfl)

-- a THX as the answer to a READ, whose query is no part of a transfer
example : chnRun (ChnCnx.new true) [.command false 3 0 none, .thxAnswer 1 200 1] = .error .downcast := rfl

end Scambio
