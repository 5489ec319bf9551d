import Scambio.Lib.Channel

/-!
# Reception — a transfer is thanked once it is complete

`Reception` is what one receiver goes through: copy commands in any order, and checks of its fragments
by `tx_checker`.  The fragments hold nothing but what was received (`Reception.sound`) as long as
`check_in_frags` finds no hole before a recent fragment, for it merges both sides of such a hole.
-/

namespace Scambio

/-- The file is known to its end: an end of file was received, and each byte before it. -/
def Completed (received : List Copy) : Prop :=
  ∃ n, (∃ c ∈ received, c.eof = true ∧ c.endAt = n) ∧ ∀ b, 0 ≤ b → b < n → Carried received b

/-- A receiver and the copy commands that it got.  The fragments satisfy `ok` each time they are
checked. -/
inductive Reception (ok : List Fragment → Nat → Prop) : ChnTx → List Copy → Prop
  | start (addr : Nat) (id : Int) (stream : Option Nat) (ts : Nat) :
      Reception ok (chnTxCtor addr false id stream ts) []
  | copy {tx tx' : ChnTx} {received : List Copy} {sent : List ChnSent} {finished : Bool} (c : Copy)
      (env : CopyEnv) : Reception ok tx received →
      (∀ ts, env.clock = some ts → ok (insertByOffset (inFrag ts c) tx.inFrags) ts) →
      serveCopyTx tx c env = .ok (tx', sent, finished) → Reception ok tx' (received ++ [c])
  | check {tx : ChnTx} {received : List Copy} (now writes : Nat) : Reception ok tx received →
      ok tx.inFrags now → Reception ok (checkInFrags tx now writes).1 received
  | status {tx tx' : ChnTx} {received : List Copy} (status : Int) : Reception ok tx received →
      chnTxSetStatus tx status = .ok tx' → Reception ok tx' received

/-! ## Steps -/

theorem chnTxSetStatus_ok {tx tx' : ChnTx} {status : Int} (h : chnTxSetStatus tx status = .ok tx') :
    tx.status = 0 ∧ status ≠ 0 ∧ tx' = { tx with status := status, stream := none } := by
  unfold chnTxSetStatus at h
  split at h
  · cases h
  · split at h
    · cases h
    · next h0 hne =>
      cases h
      exact ⟨by simpa using h0, hne, rfl⟩

theorem checkInFrags_inFrags (tx : ChnTx) (now writes : Nat) :
    (checkInFrags tx now writes).1.inFrags = (checkLoop tx.id now writes none 0 tx.inFrags).frags := by
  unfold checkInFrags
  split
  · next hnil =>
    rw [hnil]
    split
    · cases writes with
      | zero => exact hnil
      | succ writes => rfl
    · exact hnil
  · rfl

theorem thx_not_mem_chnAnswer (id seq status : Int) (compl : Bytes) :
    ChnSent.thx id ∉ chnAnswer seq status compl := by
  unfold chnAnswer
  split <;> simp

/-- The fragments stay as they are, or the one received is registered.  A THX is not sent yet. -/
theorem serveCopyTx_cases {tx tx' : ChnTx} {c : Copy} {env : CopyEnv} {sent : List ChnSent} {finished : Bool}
    (h : serveCopyTx tx c env = .ok (tx', sent, finished)) :
    (∀ id, ChnSent.thx id ∉ sent) ∧
    ((tx'.inFrags = tx.inFrags ∧ finished = false) ∨
      ∃ ts, env.clock = some ts ∧ tx' = (registerFrag tx c ts env.asks).1 ∧
        (finished = true → isOver tx'.inFrags = true)) := by
  have hanswer : ∀ status compl id, ChnSent.thx id ∉ chnAnswer c.seq status compl :=
    fun status compl id => thx_not_mem_chnAnswer id c.seq status compl
  unfold serveCopyTx at h
  split at h
  · cases h
    exact ⟨hanswer _ _, .inl ⟨rfl, rfl⟩⟩
  split at h
  · cases h
    exact ⟨hanswer _ _, .inl ⟨rfl, rfl⟩⟩
  split at h
  · cases h
  split at h
  · -- the stream could not be written
    cases hs : chnTxSetStatus tx 501 with
    | error e =>
        rw [hs] at h
        cases h
    | ok t =>
        rw [hs] at h
        cases h
        rw [(chnTxSetStatus_ok hs).2.2]
        exact ⟨hanswer _ _, .inl ⟨rfl, rfl⟩⟩
  · split at h
    · cases h
      exact ⟨by simp, .inl ⟨rfl, rfl⟩⟩
    split at h
    · cases h
      exact ⟨hanswer _ _, .inl ⟨rfl, rfl⟩⟩
    · next ts hclock =>
      split at h
      · cases h
        exact ⟨hanswer _ _, .inl ⟨rfl, rfl⟩⟩
      · cases h
        refine ⟨fun id hmem => ?_, .inr ⟨ts, hclock, rfl, fun hover => ?_⟩⟩
        · rcases List.mem_append.1 hmem with hmem | hmem
          · exact hanswer _ _ id hmem
          · simp at hmem
        · exact (Bool.and_eq_true_iff.1 hover).2

/-- A THX comes from a transfer that is over. -/
theorem serveCopy_thx {cnx cnx' : ChnCnx} {c : Copy} {env : CopyEnv} {sent : List ChnSent} {id : Int}
    (h : serveCopy cnx c env = .ok (cnx', sent)) (hthx : ChnSent.thx id ∈ sent) :
    ∃ tx tx' sent', findRtx cnx c.id = some tx ∧ serveCopyTx tx c env = .ok (tx', sent', true) := by
  unfold serveCopy at h
  split at h
  · cases h
    exact absurd hthx (thx_not_mem_chnAnswer _ _ _ _)
  · next tx hfind =>
    rcases hserve : serveCopyTx tx c env with e | ⟨tx', sent', finished⟩
    · rw [hserve] at h
      cases h
    · cases finished with
      | true => exact ⟨tx, tx', sent', hfind, hserve⟩
      | false =>
          rw [hserve] at h
          cases h
          exact absurd hthx ((serveCopyTx_cases hserve).1 id)

/-! ## Runs -/

theorem registerFrag_sound {received : List Copy} {tx : ChnTx} (h : Sound received tx.inFrags)
    (c : Copy) {ts : Nat} (asks : Nat) (hhole : NoHole (insertByOffset (inFrag ts c) tx.inFrags) ts) :
    Sound (received ++ [c]) (registerFrag tx c ts asks).1.inFrags := by
  rw [registerFrag, checkInFrags_inFrags]
  exact checkLoop_start_sound tx.id asks (h.insert c ts) hhole

theorem Sound.mono {received : List Copy} {frags : List Fragment} (h : Sound received frags)
    (c : Copy) : Sound (received ++ [c]) frags :=
  ⟨fun f hf => (h.backed f hf).mono (List.subset_append_left _ _), h.ordered⟩

/-- What a copy command leaves of sound fragments. -/
theorem serveCopyTx_sound {received : List Copy} {tx tx' : ChnTx} {c : Copy} {env : CopyEnv}
    {sent : List ChnSent} {finished : Bool} (hsound : Sound received tx.inFrags)
    (hhole : ∀ ts, env.clock = some ts → NoHole (insertByOffset (inFrag ts c) tx.inFrags) ts)
    (h : serveCopyTx tx c env = .ok (tx', sent, finished)) : Sound (received ++ [c]) tx'.inFrags := by
  rcases (serveCopyTx_cases h).2 with ⟨hsame, -⟩ | ⟨ts, hclock, rfl, -⟩
  · rw [hsame]
    exact hsound.mono c
  · exact registerFrag_sound hsound c env.asks (hhole ts hclock)

theorem Reception.sound {tx : ChnTx} {received : List Copy} (h : Reception NoHole tx received) :
    Sound received tx.inFrags := by
  induction h with
  | start addr id stream ts => exact ⟨fun f hf => absurd hf List.not_mem_nil, List.Pairwise.nil⟩
  | copy c env _ hhole hserve ih => exact serveCopyTx_sound ih hhole hserve
  | @check tx received now writes _ hhole ih =>
      rw [checkInFrags_inFrags]
      exact checkLoop_start_sound tx.id writes ih hhole
  | status status _ hset ih =>
      rw [(chnTxSetStatus_ok hset).2.2]
      exact ih

/-- Fragments that are over are one fragment, from the start to the end of the file. -/
theorem Sound.completed {received : List Copy} {frags : List Fragment} (h : Sound received frags)
    (hover : isOver frags = true) : Completed received := by
  unfold isOver at hover
  split at hover
  · next f =>
    rcases Bool.and_eq_true_iff.1 hover with ⟨heof, hstart⟩
    have hf := h.backed f List.mem_cons_self
    have hzero : f.start = 0 := by simpa using hstart
    refine ⟨f.endAt, hf.eof heof, fun b hlow hhigh => hf.bytes b ?_ hhigh⟩
    rw [hzero]
    exact hlow
  · cases hover

/-- In every run in which `check_in_frags` finds no hole before a recent fragment, a transfer that is
thanked is complete. -/
theorem thx_only_when_complete {cnx cnx' : ChnCnx} {tx : ChnTx} {received : List Copy} {c : Copy}
    {env : CopyEnv} {sent : List ChnSent} {id : Int} (hrun : Reception NoHole tx received)
    (hfind : findRtx cnx c.id = some tx)
    (hhole : ∀ ts, env.clock = some ts → NoHole (insertByOffset (inFrag ts c) tx.inFrags) ts)
    (hserve : serveCopy cnx c env = .ok (cnx', sent)) (hthx : ChnSent.thx id ∈ sent) :
    Completed (received ++ [c]) := by
  rcases serveCopy_thx hserve hthx with ⟨t, tx', sent', ht, htx⟩
  rw [hfind] at ht
  cases ht
  have hsound := serveCopyTx_sound hrun.sound hhole htx
  rcases (serveCopyTx_cases htx).2 with ⟨-, hfalse⟩ | ⟨-, -, -, hover⟩
  · cases hfalse
  · exact hsound.completed (hover rfl)

/-- All goes well, at a given time. -/
def CopyEnv.fine (ts : Nat) : CopyEnv :=
  { alloc := true, read := true, write := .ok (), answered := true, clock := some ts, fragAlloc := true,
    asks := 0, time := 0, thx := none }

/-- A connection with one receiver, number 1. -/
def receiverCnx (tx : ChnTx) : ChnCnx :=
  { cnx := { usable := true, nextSeq := 1, sentQueries := [] }, txs := [tx] }

def sampleReceiver : ChnTx :=
  chnTxCtor 0 false 1 (some 0) 0

/-- A chunk of one byte. -/
def sampleCopy (offset : Nat) (eof : Bool) : Copy :=
  { seq := 0, id := 1, offset := offset, size := 1, eof := eof, offset_ge := by omega }

def halfReceiver : ChnTx :=
  (registerFrag sampleReceiver (sampleCopy 0 false) 0 0).1

/-- One chunk is received. -/
theorem halfReceiver_run {ok : List Fragment → Nat → Prop} (h : ok [inFrag 0 (sampleCopy 0 false)] 0) :
    Reception ok halfReceiver [sampleCopy 0 false] := by
  have hserve : serveCopyTx sampleReceiver (sampleCopy 0 false) (CopyEnv.fine 0) =
      .ok (halfReceiver, [], false) := rfl
  refine .copy _ _ (.start 0 1 (some 0) 0) (fun ts hts => ?_) hserve
  cases hts
  exact h

/-- Fragments without any hole, whatever their age. -/
theorem noHole_pair {f g : Fragment} (h : g.start ≤ f.endAt) (now : Nat) : NoHole [f, g] now := by
  intro before x after heq hne hbefore
  rcases before with _ | ⟨b, _ | ⟨b', _ | ⟨b'', before⟩⟩⟩
  · exact absurd rfl hne
  · cases heq
    have := hbefore f List.mem_cons_self
    omega
  · cases heq
  · cases heq

theorem noHole_singleton (f : Fragment) (now : Nat) : NoHole [f] now := by
  intro before x after heq hne
  rcases before with _ | ⟨b, _ | ⟨b', before⟩⟩
  · exact absurd rfl hne
  · cases heq
  · cases heq

/-- Two chunks in order. -/
theorem thx_only_when_complete_sample :
    Completed ([sampleCopy 0 false] ++ [sampleCopy 1 true]) := by
  have hrun : Reception NoHole halfReceiver [sampleCopy 0 false] :=
    halfReceiver_run (noHole_singleton _ _)
  have hfind : findRtx (receiverCnx halfReceiver) (sampleCopy 1 true).id = some halfReceiver := rfl
  have hserve : ∃ cnx', serveCopy (receiverCnx halfReceiver) (sampleCopy 1 true) (CopyEnv.fine 1) =
      .ok (cnx', [ChnSent.thx 1]) := ⟨_, rfl⟩
  rcases hserve with ⟨cnx', hserve⟩
  refine thx_only_when_complete hrun hfind (fun ts hts => ?_) hserve List.mem_cons_self
  cases hts
  exact noHole_pair (by decide) 1

/-- The chunk between the two that are received is not. -/
theorem not_thx_only_when_complete :
    ¬ ∀ (cnx cnx' : ChnCnx) (tx : ChnTx) (received : List Copy) (c : Copy) (env : CopyEnv)
      (sent : List ChnSent) (id : Int), Reception (fun _ _ => True) tx received →
      findRtx cnx c.id = some tx → serveCopy cnx c env = .ok (cnx', sent) → ChnSent.thx id ∈ sent →
      Completed (received ++ [c]) := by
  intro h
  have hserve : ∃ cnx', serveCopy (receiverCnx halfReceiver) (sampleCopy 2 true) (CopyEnv.fine 1) =
      .ok (cnx', [ChnSent.thx 1]) := ⟨_, rfl⟩
  rcases hserve with ⟨cnx', hserve⟩
  rcases h _ _ _ _ _ _ _ 1 (halfReceiver_run trivial) rfl hserve List.mem_cons_self with
    ⟨n, ⟨c, hc, heof, hend⟩, hall⟩
  -- the end of file is at 3, and byte 1 is missing
  have hn : n = 3 := by
    rcases List.mem_append.1 hc with hc | hc
    · rw [List.mem_singleton.1 hc] at heof
      cases heof
    · rw [List.mem_singleton.1 hc] at hend
      rw [← hend]
      decide
  rcases hall 1 (by decide) (by omega) with ⟨d, hd, hlow, hhigh⟩
  rcases List.mem_append.1 hd with hd | hd
  · rw [List.mem_singleton.1 hd] at hhigh
    revert hhigh
    decide
  · rw [List.mem_singleton.1 hd] at hlow
    revert hlow
    decide

end Scambio
