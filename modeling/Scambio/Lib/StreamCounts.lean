import Mathlib.Data.List.Nodup
import Scambio.Lib.Reception
import Scambio.Lib.Stream

/-!
# StreamCounts — the references to the streams of the file server

`serve_read_write` looks a stream up, which takes a reference, and gives the stream to a transfer, which
takes another one.  The transfer releases its own when it ends, and nothing ever releases the first.

- `Held` relates the readers and the writer of each stream to the transfers, and says that each stream
  has more references than that;
- `Filed.Inv.step` keeps it, so that no stream is ever deleted.
-/

namespace Scambio

/-- What the file server handles. -/
inductive FiledEvent
  | readWrite (cnx : Nat) (reader : Bool) (seq : Int) (name : Bytes) (opened : Option (Option Bytes))
      (clock : Option Nat)
  | finish (addr : Nat) (status : Int)
  | close (cnx : Nat)

def filedStep (rootLen : Nat) (s : Filed) : FiledEvent → Except StreamFault Filed
  | .readWrite cnx reader seq name opened clock =>
      .ok (serveReadWrite rootLen s cnx reader seq name opened clock).1
  | .finish addr status => finishTx s addr status
  | .close cnx => closeCnx s cnx

def filedRun (rootLen : Nat) (s : Filed) : List FiledEvent → Except StreamFault Filed
  | [] => .ok s
  | e :: es =>
      match filedStep rootLen s e with
      | .error f => .error f
      | .ok s => filedRun rootLen s es

def Stream.nbWriters (st : Stream) : Nat :=
  if st.hasWriter then 1 else 0

/-- The count of each loaded stream is that of its readers and of its writer. -/
def Balanced (s : Filed) : Prop :=
  ∀ st ∈ s.streams, st.count = st.readers.length + st.nbWriters

/-- The command names a resource that is allowed and can be opened. -/
def FiledEvent.Loads : FiledEvent → Prop
  | .readWrite _ _ seq name opened _ => seq ≠ -1 ∧ 46 ∉ name ∧ opened ≠ none
  | _ => False

/-! ## Transfers and streams -/

/-- The transfers on a stream, for senders or for receivers. -/
def usersOf (sender : Bool) (addr : Nat) (txs : List ChnTx) : List Nat :=
  (txs.filter fun tx => tx.sender == sender && tx.stream == some addr).map ChnTx.addr

def dropTx (addr : Nat) (txs : List ChnTx) : List ChnTx :=
  txs.filter fun tx => tx.addr ≠ addr

structure Held (streams : List Stream) (txs : List ChnTx) : Prop where
  distinct : (streams.map Stream.addr).Nodup
  loaded : ∀ tx ∈ txs, ∀ addr, tx.stream = some addr → ∃ st ∈ streams, st.addr = addr
  readers : ∀ st ∈ streams, st.readers = usersOf true st.addr txs
  writer : ∀ st ∈ streams, (usersOf false st.addr txs).length = st.nbWriters
  leaked : ∀ st ∈ streams, (st.readers.length : Int) + st.nbWriters < st.count

theorem usersOf_cons (sender : Bool) (addr : Nat) (tx : ChnTx) (txs : List ChnTx) :
    usersOf sender addr (tx :: txs) =
      if tx.sender = sender ∧ tx.stream = some addr then tx.addr :: usersOf sender addr txs
      else usersOf sender addr txs := by
  unfold usersOf
  rw [List.filter_cons]
  by_cases h : tx.sender = sender ∧ tx.stream = some addr
  · simp [h]
  · have hf : (tx.sender == sender && tx.stream == some addr) = false := by
      simpa using h
    rw [hf, if_neg h]
    rfl

theorem dropTx_cons (addr : Nat) (tx : ChnTx) (txs : List ChnTx) :
    dropTx addr (tx :: txs) = if tx.addr = addr then dropTx addr txs else tx :: dropTx addr txs := by
  unfold dropTx
  by_cases h : tx.addr = addr <;> simp [h]

/-- The addresses on a stream, when one of its transfers goes. -/
theorem usersOf_dropTx {sender : Bool} {addr : Nat} {txs : List ChnTx}
    (hnodup : (txs.map ChnTx.addr).Nodup) (x : Nat) :
    usersOf sender addr (dropTx x txs) = (usersOf sender addr txs).erase x := by
  have hsub : (usersOf sender addr txs).Nodup :=
    hnodup.sublist (List.Sublist.map _ List.filter_sublist)
  rw [hsub.erase_eq_filter, usersOf, usersOf, dropTx, List.filter_map, List.filter_filter,
    List.filter_filter]
  congr 1
  refine List.filter_congr fun t _ => ?_
  by_cases haddr : t.addr = x
  · simp [haddr]
  · simp [haddr, bne_iff_ne, Bool.and_comm]

theorem not_mem_usersOf {sender : Bool} {addr : Nat} {txs : List ChnTx}
    (hnodup : (txs.map ChnTx.addr).Nodup) {tx : ChnTx} (htx : tx ∈ txs)
    (h : ¬ (tx.sender = sender ∧ tx.stream = some addr)) : tx.addr ∉ usersOf sender addr txs := by
  intro hmem
  rcases List.mem_map.1 hmem with ⟨t, ht, haddr⟩
  rcases List.mem_filter.1 ht with ⟨ht, hp⟩
  have heq : t = tx := List.inj_on_of_nodup_map hnodup ht htx haddr
  subst heq
  exact h (by simpa using hp)

theorem mem_usersOf {tx : ChnTx} {txs : List ChnTx} (htx : tx ∈ txs) {addr : Nat}
    (h : tx.stream = some addr) : tx.addr ∈ usersOf tx.sender addr txs := by
  refine List.mem_map.2 ⟨tx, List.mem_filter.2 ⟨htx, ?_⟩, rfl⟩
  simp [h]

/-! ## One stream changes -/

theorem map_addr_putStream (streams : List Stream) (st : Stream) :
    (putStream streams st).map Stream.addr = streams.map Stream.addr := by
  unfold putStream
  rw [List.map_map]
  refine List.map_congr_left fun s _ => ?_
  by_cases h : s.addr = st.addr <;> simp [h]

theorem mem_putStream {streams : List Stream} {st x : Stream} (h : x ∈ putStream streams st) :
    x = st ∨ (x ∈ streams ∧ x.addr ≠ st.addr) := by
  rcases List.mem_map.1 h with ⟨s, hs, rfl⟩
  by_cases haddr : s.addr = st.addr
  · exact .inl (if_pos haddr)
  · rw [if_neg haddr]
    exact .inr ⟨hs, haddr⟩

/-- The transfers on one stream change, and the stream with them. -/
theorem Held.put {streams : List Stream} {txs txs' : List ChnTx} (h : Held streams txs) {st : Stream}
    (hothers : ∀ sender b, b ≠ st.addr → usersOf sender b txs' = usersOf sender b txs)
    (hloaded : ∀ tx ∈ txs', ∀ addr, tx.stream = some addr → ∃ s ∈ streams, s.addr = addr)
    (hreaders : st.readers = usersOf true st.addr txs')
    (hwriter : (usersOf false st.addr txs').length = st.nbWriters)
    (hleaked : (st.readers.length : Int) + st.nbWriters < st.count) :
    Held (putStream streams st) txs' := by
  refine ⟨by rw [map_addr_putStream]; exact h.distinct, fun tx htx addr hst => ?_, fun s hs => ?_,
    fun s hs => ?_, fun s hs => ?_⟩
  · rcases hloaded tx htx addr hst with ⟨s, hs, haddr⟩
    have hmem : addr ∈ (putStream streams st).map Stream.addr := by
      rw [map_addr_putStream]
      exact List.mem_map.2 ⟨s, hs, haddr⟩
    exact List.mem_map.1 hmem
  · rcases mem_putStream hs with rfl | ⟨hs, hne⟩
    · exact hreaders
    · rw [hothers true s.addr hne]
      exact h.readers s hs
  · rcases mem_putStream hs with rfl | ⟨hs, hne⟩
    · exact hwriter
    · rw [hothers false s.addr hne]
      exact h.writer s hs
  · rcases mem_putStream hs with rfl | ⟨hs, -⟩
    · exact hleaked
    · exact h.leaked s hs

/-- One more reference. -/
theorem Held.ref {streams : List Stream} {txs : List ChnTx} (h : Held streams txs) {st : Stream}
    (hst : st ∈ streams) : Held (putStream streams (streamRef st)) txs := by
  have hleaked := h.leaked st hst
  refine h.put (fun _ _ _ => rfl) h.loaded (h.readers st hst) (h.writer st hst) ?_
  show (st.readers.length : Int) + st.nbWriters < st.count + 1
  omega

/-- A reader or a writer comes on a stream. -/
theorem Held.add {streams : List Stream} {txs : List ChnTx} (h : Held streams txs) {st st' : Stream}
    (hst : st ∈ streams) {tx : ChnTx} (htx : tx.stream = some st.addr) (haddr : st'.addr = st.addr)
    (hreaders : st'.readers = if tx.sender then tx.addr :: st.readers else st.readers)
    (hwriter : st'.nbWriters = if tx.sender then st.nbWriters else st.nbWriters + 1)
    (hcount : st'.count = st.count + 1) : Held (putStream streams st') (tx :: txs) := by
  have hleaked := h.leaked st hst
  refine h.put (fun sender b hne => ?_) (fun t ht a hta => ?_) ?_ ?_ ?_
  · rw [usersOf_cons, if_neg]
    rintro ⟨-, hstream⟩
    rw [htx, Option.some_inj] at hstream
    exact hne (by rw [haddr, hstream])
  · rcases List.mem_cons.1 ht with rfl | ht
    · rw [htx, Option.some_inj] at hta
      exact ⟨st, hst, hta⟩
    · exact h.loaded t ht a hta
  · rw [hreaders, haddr, usersOf_cons, ← h.readers st hst]
    cases tx.sender <;> simp [htx]
  · rw [hwriter, haddr, usersOf_cons, ← h.writer st hst]
    cases tx.sender <;> simp [htx]
  · rw [hreaders, hwriter, hcount]
    cases tx.sender <;> simp <;> omega

theorem findStream_of_mem {streams : List Stream} (hnodup : (streams.map Stream.addr).Nodup)
    {st : Stream} (hst : st ∈ streams) : findStream streams st.addr = some st := by
  unfold findStream
  cases hfind : streams.find? fun s => s.addr == st.addr with
  | none =>
      have hno := List.find?_eq_none.1 hfind st hst
      simp at hno
  | some s =>
      have haddr : s.addr = st.addr := by simpa using List.find?_some hfind
      have hs := List.mem_of_find?_eq_some hfind
      rw [List.inj_on_of_nodup_map hnodup hs hst haddr]

/-- A stream that keeps references is not deleted. -/
theorem streamUnref_of_lt (streams : List Stream) (st : Stream) (h : 1 < st.count) :
    streamUnref streams st = .ok (putStream streams { st with count := st.count - 1 }) := by
  unfold streamUnref
  rw [if_neg]
  show ¬ st.count - 1 ≤ 0
  omega

/-- The stream of a transfer that goes, without this transfer. -/
def withoutTx (st : Stream) (tx : ChnTx) : Stream :=
  if tx.sender then { st with readers := st.readers.erase tx.addr, count := st.count - 1 }
  else { st with hasWriter := false, count := st.count - 1 }

section Release

variable {streams : List Stream} {txs : List ChnTx} {st : Stream} {tx : ChnTx}

theorem Held.release_eq (h : Held streams txs) (htx : tx ∈ txs) (hst : st ∈ streams)
    (hstream : tx.stream = some st.addr) :
    chnTxReleaseStream streams tx = .ok (putStream streams (withoutTx st tx)) := by
  have hmem := mem_usersOf htx hstream
  have hleaked := h.leaked st hst
  unfold chnTxReleaseStream
  simp only [hstream, findStream_of_mem h.distinct hst, withoutTx]
  cases hsender : tx.sender with
  | true =>
      rw [hsender, ← h.readers st hst] at hmem
      have hpos := List.length_pos_of_mem hmem
      have hlt : 1 < st.count := by omega
      exact streamUnref_of_lt streams { st with readers := st.readers.erase tx.addr } hlt
  | false =>
      rw [hsender] at hmem
      have hpos := List.length_pos_of_mem hmem
      rw [h.writer st hst] at hpos
      have hwriter : st.hasWriter = true := by
        by_contra hno
        simp [Stream.nbWriters, hno] at hpos
      have hlt : 1 < st.count := by omega
      simp only [Bool.false_eq_true, if_false, streamRemoveWriter, hwriter, if_true]
      exact streamUnref_of_lt streams { st with hasWriter := false } hlt

theorem Held.loaded_drop (h : Held streams txs) (addr : Nat) :
    ∀ t ∈ dropTx addr txs, ∀ a, t.stream = some a → ∃ s ∈ streams, s.addr = a :=
  fun t ht => h.loaded t (List.mem_of_mem_filter ht)

/-- The transfer does not use this stream. -/
theorem usersOf_dropTx_of_not {sender : Bool} {addr : Nat} (hnodup : (txs.map ChnTx.addr).Nodup)
    (htx : tx ∈ txs) (h : ¬ (tx.sender = sender ∧ tx.stream = some addr)) :
    usersOf sender addr (dropTx tx.addr txs) = usersOf sender addr txs := by
  rw [usersOf_dropTx hnodup, List.erase_of_not_mem (not_mem_usersOf hnodup htx h)]

theorem Held.put_without (h : Held streams txs) (hnodup : (txs.map ChnTx.addr).Nodup) (htx : tx ∈ txs)
    (hst : st ∈ streams) (hstream : tx.stream = some st.addr) :
    Held (putStream streams (withoutTx st tx)) (dropTx tx.addr txs) := by
  have hmem := mem_usersOf htx hstream
  have hleaked := h.leaked st hst
  have haddr : (withoutTx st tx).addr = st.addr := by
    unfold withoutTx
    split <;> rfl
  have hothers : ∀ sender b, b ≠ (withoutTx st tx).addr →
      usersOf sender b (dropTx tx.addr txs) = usersOf sender b txs := by
    intro sender b hne
    refine usersOf_dropTx_of_not hnodup htx ?_
    rintro ⟨-, hb⟩
    rw [hstream, Option.some_inj] at hb
    exact hne (by rw [haddr, hb])
  refine h.put hothers (h.loaded_drop tx.addr) ?_ ?_ ?_
  · rw [haddr]
    cases hsender : tx.sender with
    | true => simp [withoutTx, hsender, usersOf_dropTx hnodup, h.readers st hst]
    | false =>
        rw [usersOf_dropTx_of_not hnodup htx (by simp [hsender]), ← h.readers st hst]
        simp [withoutTx, hsender]
  · rw [haddr]
    cases hsender : tx.sender with
    | true =>
        rw [usersOf_dropTx_of_not hnodup htx (by simp [hsender]), h.writer st hst]
        simp [withoutTx, hsender, Stream.nbWriters]
    | false =>
        rw [hsender] at hmem
        -- there is one writer at most
        have hone : (usersOf false st.addr txs).length ≤ 1 := by
          rw [h.writer st hst, Stream.nbWriters]
          split <;> omega
        rw [usersOf_dropTx hnodup, List.length_erase_of_mem hmem]
        simp only [withoutTx, hsender, Stream.nbWriters, Bool.false_eq_true, if_false]
        omega
  · cases hsender : tx.sender with
    | true =>
        rw [hsender, ← h.readers st hst] at hmem
        have hpos := List.length_pos_of_mem hmem
        have hlen := List.length_erase_of_mem hmem
        simp only [withoutTx, hsender, if_true, Stream.nbWriters] at hleaked ⊢
        rw [hlen]
        omega
    | false =>
        rw [hsender] at hmem
        have hpos := List.length_pos_of_mem hmem
        rw [h.writer st hst] at hpos
        have hnone : (withoutTx st tx).nbWriters = 0 := by simp [withoutTx, hsender, Stream.nbWriters]
        rw [hnone]
        simp only [withoutTx, hsender, Bool.false_eq_true, if_false]
        omega

/-- A transfer goes: its stream stays, for it has a reference more. -/
theorem Held.release (h : Held streams txs) (hnodup : (txs.map ChnTx.addr).Nodup) (htx : tx ∈ txs) :
    ∃ streams', chnTxReleaseStream streams tx = .ok streams' ∧ Held streams' (dropTx tx.addr txs) ∧
      streams'.map Stream.addr = streams.map Stream.addr := by
  cases hstream : tx.stream with
  | none =>
      have hsame : ∀ sender addr, usersOf sender addr (dropTx tx.addr txs) = usersOf sender addr txs :=
        fun sender addr => usersOf_dropTx_of_not hnodup htx (by simp [hstream])
      refine ⟨streams, by simp [chnTxReleaseStream, hstream], ⟨h.distinct, h.loaded_drop tx.addr,
        fun st hst => ?_, fun st hst => ?_, h.leaked⟩, rfl⟩
      · rw [hsame]
        exact h.readers st hst
      · rw [hsame]
        exact h.writer st hst
  | some addr =>
      rcases h.loaded tx htx addr hstream with ⟨st, hst, rfl⟩
      exact ⟨_, h.release_eq htx hst hstream, h.put_without hnodup htx hst hstream,
        map_addr_putStream _ _⟩

end Release

/-! ## Runs -/

/-- The transfers of all the connections. -/
def Filed.allTxs (s : Filed) : List ChnTx :=
  s.txs.map Prod.snd

structure Filed.Inv (s : Filed) : Prop where
  held : Held s.streams s.allTxs
  streamsFresh : ∀ a ∈ s.streams.map Stream.addr, a < s.nbStreams
  txsDistinct : (s.allTxs.map ChnTx.addr).Nodup
  txsFresh : ∀ a ∈ s.allTxs.map ChnTx.addr, a < s.nbTxs

theorem Filed.Inv.new : Filed.new.Inv where
  held := ⟨List.nodup_nil, by simp [Filed.allTxs, Filed.new], by simp [Filed.new], by simp [Filed.new],
    by simp [Filed.new]⟩
  streamsFresh := by simp [Filed.new]
  txsDistinct := List.nodup_nil
  txsFresh := by simp [Filed.allTxs, Filed.new]

theorem mem_putStream_self {streams : List Stream} {st st' : Stream} (hst : st ∈ streams)
    (haddr : st'.addr = st.addr) : st' ∈ putStream streams st' :=
  List.mem_map.2 ⟨st, hst, if_pos haddr.symm⟩

/-- A lookup that succeeds leaves its stream in the list. -/
theorem Filed.Inv.lookup {s s' : Filed} (h : s.Inv) {rootLen : Nat} {name : Bytes}
    {opened : Option (Option Bytes)} {st : Stream}
    (hr : streamLookup rootLen s name opened = .ok (s', st)) : s'.Inv ∧ st ∈ s'.streams := by
  unfold streamLookup at hr
  split at hr
  · cases hr
  split at hr
  · next st' hfind =>
    have hst := List.mem_of_find?_eq_some hfind
    cases hr
    refine ⟨⟨h.held.ref hst, ?_, h.txsDistinct, h.txsFresh⟩, mem_putStream_self hst rfl⟩
    rw [map_addr_putStream]
    exact h.streamsFresh
  · split at hr
    · cases hr
    · next file =>
      cases hr
      have hfresh : s.nbStreams ∉ s.streams.map Stream.addr :=
        fun hmem => Nat.lt_irrefl _ (h.streamsFresh _ hmem)
      have hunused : ∀ sender, usersOf sender s.nbStreams s.allTxs = [] := by
        intro sender
        rw [usersOf, List.map_eq_nil_iff, List.filter_eq_nil_iff]
        intro tx htx huse
        have hstream : tx.stream = some s.nbStreams := by simpa using (Bool.and_eq_true_iff.1 huse).2
        rcases h.held.loaded tx htx _ hstream with ⟨st, hst, haddr⟩
        exact hfresh (List.mem_map.2 ⟨st, hst, haddr⟩)
      refine ⟨⟨⟨List.nodup_cons.2 ⟨hfresh, h.held.distinct⟩, fun tx htx a ha => ?_,
        fun st hst => ?_, fun st hst => ?_, fun st hst => ?_⟩, fun a ha => ?_, h.txsDistinct,
        h.txsFresh⟩, List.mem_cons_self⟩
      · rcases h.held.loaded tx htx a ha with ⟨st, hst, haddr⟩
        exact ⟨st, List.mem_cons_of_mem _ hst, haddr⟩
      · rcases List.mem_cons.1 hst with rfl | hst
        · exact (hunused true).symm
        · exact h.held.readers st hst
      · rcases List.mem_cons.1 hst with rfl | hst
        · exact congrArg List.length (hunused false)
        · exact h.held.writer st hst
      · rcases List.mem_cons.1 hst with rfl | hst
        · simp [Stream.nbWriters]
        · exact h.held.leaked st hst
      · rcases List.mem_cons.1 ha with rfl | ha
        · exact Nat.lt_succ_self _
        · exact Nat.lt_succ_of_lt (h.streamsFresh a ha)

/-- A transfer starts on a loaded stream. -/
theorem Filed.Inv.newTx {s s' : Filed} (h : s.Inv) {cnx : Nat} {sender : Bool} {id : Int} {st : Stream}
    {ts : Nat} (hst : st ∈ s.streams) (hr : chnTxNew s cnx sender id st ts = .ok s') : s'.Inv := by
  have hfresh : s.nbTxs ∉ s.allTxs.map ChnTx.addr := fun hmem => Nat.lt_irrefl _ (h.txsFresh _ hmem)
  have htxs : ∀ a ∈ s.nbTxs :: s.allTxs.map ChnTx.addr, a < s.nbTxs + 1 := by
    intro a ha
    rcases List.mem_cons.1 ha with rfl | ha
    · exact Nat.lt_succ_self _
    · exact Nat.lt_succ_of_lt (h.txsFresh a ha)
  have hstreams : ∀ st' : Stream, ∀ a ∈ (putStream s.streams st').map Stream.addr, a < s.nbStreams := by
    intro st'
    rw [map_addr_putStream]
    exact h.streamsFresh
  unfold chnTxNew at hr
  cases sender with
  | true =>
      cases hr
      exact ⟨h.held.add hst rfl rfl rfl rfl rfl, hstreams _, List.nodup_cons.2 ⟨hfresh, h.txsDistinct⟩,
        htxs⟩
  | false =>
      simp only [Bool.false_eq_true, if_false, streamAddWriter] at hr
      cases hwriter : st.hasWriter with
      | true =>
          rw [hwriter] at hr
          cases hr
      | false =>
          rw [hwriter] at hr
          cases hr
          refine ⟨h.held.add hst rfl rfl rfl ?_ rfl, hstreams _,
            List.nodup_cons.2 ⟨hfresh, h.txsDistinct⟩, htxs⟩
          simp [Stream.nbWriters, streamRef, hwriter, chnTxCtor]

/-- Only the use that transfers make of the streams counts. -/
theorem Held.congr {streams : List Stream} {txs txs' : List ChnTx} (h : Held streams txs)
    (hloaded : ∀ tx ∈ txs', ∀ addr, tx.stream = some addr → ∃ s ∈ streams, s.addr = addr)
    (husers : ∀ sender addr, usersOf sender addr txs' = usersOf sender addr txs) : Held streams txs' := by
  refine ⟨h.distinct, hloaded, fun st hst => ?_, fun st hst => ?_, h.leaked⟩
  · rw [husers]
    exact h.readers st hst
  · rw [husers]
    exact h.writer st hst

/-- A transfer without stream might as well not be there. -/
theorem usersOf_replace {tx' : ChnTx} (hnone : tx'.stream = none) (addr : Nat) (txs : List ChnTx)
    (sender : Bool) (b : Nat) :
    usersOf sender b (txs.map fun tx => if tx.addr = addr then tx' else tx) =
      usersOf sender b (dropTx addr txs) := by
  induction txs with
  | nil => rfl
  | cons tx txs ih =>
      rw [List.map_cons, usersOf_cons, ih, dropTx_cons]
      by_cases haddr : tx.addr = addr
      · simp [haddr, hnone]
      · simp only [if_neg haddr]
        rw [usersOf_cons]

theorem Filed.Inv.finish {s : Filed} (h : s.Inv) (addr : Nat) (status : Int) :
    ∃ s', finishTx s addr status = .ok s' ∧ s'.Inv ∧
      s'.streams.map Stream.addr = s.streams.map Stream.addr := by
  unfold finishTx
  cases hfind : s.txs.find? fun t => t.2.addr == addr with
  | none => exact ⟨s, rfl, h, rfl⟩
  | some t =>
      rcases t with ⟨cnx, tx⟩
      simp only
      cases hset : chnTxSetStatus tx status with
      | error e => exact ⟨s, rfl, h, rfl⟩
      | ok tx' =>
          have haddr : tx.addr = addr := by simpa using List.find?_some hfind
          have hmem : (cnx, tx) ∈ s.txs := List.mem_of_find?_eq_some hfind
          have htx : tx ∈ s.allTxs := List.mem_map.2 ⟨_, hmem, rfl⟩
          rcases h.held.release h.txsDistinct htx with ⟨streams', hr, hheld, hsame⟩
          have htx' := (chnTxSetStatus_ok hset).2.2
          -- the transfer stays in the list, without its stream
          have hall : (s.txs.map fun t => if t.2.addr = addr then (t.1, tx') else t).map Prod.snd =
              s.allTxs.map fun t => if t.addr = addr then tx' else t := by
            rw [Filed.allTxs, List.map_map, List.map_map]
            refine List.map_congr_left fun t _ => ?_
            simp only [Function.comp_apply]
            split <;> rfl
          have haddrs : (s.allTxs.map fun t => if t.addr = addr then tx' else t).map ChnTx.addr =
              s.allTxs.map ChnTx.addr := by
            rw [List.map_map]
            refine List.map_congr_left fun t _ => ?_
            simp only [Function.comp_apply]
            split
            · next heq => rw [heq, htx', haddr]
            · rfl
          rw [hr]
          refine ⟨_, rfl, ⟨?_, ?_, ?_, ?_⟩, hsame⟩
          · rw [Filed.allTxs, hall]
            refine hheld.congr (fun t ht a hta => ?_) fun sender b => ?_
            · rcases List.mem_map.1 ht with ⟨u, hu, rfl⟩
              by_cases hua : u.addr = addr
              · rw [if_pos hua, htx'] at hta
                cases hta
              · rw [if_neg hua] at hta
                have hdrop : u ∈ dropTx tx.addr s.allTxs :=
                  List.mem_filter.2 ⟨hu, by simpa [haddr] using hua⟩
                exact hheld.loaded u hdrop a hta
            · rw [haddr]
              exact usersOf_replace (by rw [htx']) addr s.allTxs sender b
          · show ∀ a ∈ streams'.map Stream.addr, a < s.nbStreams
            rw [hsame]
            exact h.streamsFresh
          · rw [Filed.allTxs, hall, haddrs]
            exact h.txsDistinct
          · rw [Filed.allTxs, hall, haddrs]
            exact h.txsFresh

/-- The transfers of a list are deleted one after the other. -/
theorem Held.delTxs {streams : List Stream} {txs : List ChnTx} (h : Held streams txs)
    (hnodup : (txs.map ChnTx.addr).Nodup) {L : List (Nat × ChnTx)} (hL : ∀ t ∈ L, t.2 ∈ txs)
    (hdistinct : (L.map fun t => t.2.addr).Nodup) :
    ∃ streams', Scambio.delTxs streams L = .ok streams' ∧
      Held streams' (txs.filter fun tx => tx.addr ∉ L.map fun t => t.2.addr) ∧
      streams'.map Stream.addr = streams.map Stream.addr := by
  induction L generalizing streams txs with
  | nil =>
      refine ⟨streams, rfl, ?_, rfl⟩
      simpa using h
  | cons t L ih =>
      rcases List.nodup_cons.1 hdistinct with ⟨hnot, hrest⟩
      rcases h.release hnodup (hL t List.mem_cons_self) with ⟨streams₁, hr₁, hheld₁, hsame₁⟩
      have hnodup₁ : ((dropTx t.2.addr txs).map ChnTx.addr).Nodup :=
        hnodup.sublist (List.Sublist.map _ List.filter_sublist)
      have hL₁ : ∀ u ∈ L, u.2 ∈ dropTx t.2.addr txs := by
        intro u hu
        refine List.mem_filter.2 ⟨hL u (List.mem_cons_of_mem _ hu), ?_⟩
        have hne : u.2.addr ≠ t.2.addr := by
          intro heq
          exact hnot (List.mem_map.2 ⟨u, hu, heq⟩)
        simpa using hne
      rcases ih hheld₁ hnodup₁ hL₁ hrest with ⟨streams', hr, hheld, hsame⟩
      refine ⟨streams', ?_, ?_, hsame.trans hsame₁⟩
      · rw [Scambio.delTxs, hr₁]
        exact hr
      · rw [dropTx, List.filter_filter] at hheld
        convert hheld using 2
        funext tx
        simp only [List.map_cons, List.mem_cons, not_or, ne_eq, Bool.decide_and]
        rw [Bool.and_comm]

theorem Filed.Inv.close {s : Filed} (h : s.Inv) (cnx : Nat) :
    ∃ s', closeCnx s cnx = .ok s' ∧ s'.Inv ∧
      s'.streams.map Stream.addr = s.streams.map Stream.addr := by
  have hinj : (s.txs.map fun t => t.2.addr).Nodup := by
    have := h.txsDistinct
    rwa [Filed.allTxs, List.map_map] at this
  have hL : ∀ t ∈ s.txs.filter fun t => t.1 = cnx, t.2 ∈ s.allTxs :=
    fun t ht => List.mem_map.2 ⟨t, List.mem_of_mem_filter ht, rfl⟩
  have hdistinct : ((s.txs.filter fun t => t.1 = cnx).map fun t => t.2.addr).Nodup :=
    hinj.sublist (List.Sublist.map _ List.filter_sublist)
  rcases h.held.delTxs h.txsDistinct hL hdistinct with ⟨streams', hr, hheld, hsame⟩
  -- the other connections keep their transfers
  have hkept : (s.allTxs.filter fun tx =>
      tx.addr ∉ (s.txs.filter fun t => t.1 = cnx).map fun t => t.2.addr) =
      (s.txs.filter fun t => t.1 ≠ cnx).map Prod.snd := by
    rw [Filed.allTxs, List.filter_map]
    congr 1
    refine List.filter_congr fun t ht => ?_
    simp only [Function.comp_apply, decide_not, decide_eq_decide, Bool.not_eq_eq_eq_not, Bool.not_not,
      List.mem_map, List.mem_filter, decide_eq_true_eq]
    refine ⟨?_, fun hcnx => ⟨t, ⟨ht, hcnx⟩, rfl⟩⟩
    rintro ⟨u, ⟨hu, hcnx⟩, heq⟩
    rw [← List.inj_on_of_nodup_map hinj hu ht heq]
    exact hcnx
  have hsub : ((s.txs.filter fun t => t.1 ≠ cnx).map Prod.snd).Sublist s.allTxs :=
    List.Sublist.map _ List.filter_sublist
  rw [hkept] at hheld
  refine ⟨{ s with streams := streams', txs := s.txs.filter fun t => t.1 ≠ cnx }, ?_, ⟨hheld, ?_, ?_, ?_⟩,
    hsame⟩
  · rw [closeCnx, hr]
    rfl
  · show ∀ a ∈ streams'.map Stream.addr, a < s.nbStreams
    rw [hsame]
    exact h.streamsFresh
  · exact h.txsDistinct.sublist (hsub.map _)
  · exact fun a ha => h.txsFresh a ((hsub.map _).subset ha)

/-- A command is served.  It loads a stream, or every stream was loaded before. -/
theorem Filed.Inv.serve {s : Filed} (h : s.Inv) (rootLen cnx : Nat) (reader : Bool) (seq : Int)
    (name : Bytes) (opened : Option (Option Bytes)) (clock : Option Nat) :
    (serveReadWrite rootLen s cnx reader seq name opened clock).1.Inv := by
  unfold serveReadWrite
  split
  · exact h
  split
  · exact h
  · next s' st hlookup =>
    rcases h.lookup hlookup with ⟨hinv, hst⟩
    split
    · exact hinv
    · split
      · exact hinv
      · next s'' hnew => exact hinv.newTx hst hnew

theorem putStream_eq_nil {streams : List Stream} {st : Stream} :
    putStream streams st = [] ↔ streams = [] :=
  List.map_eq_nil_iff

theorem chnTxNew_streams {s s' : Filed} {cnx : Nat} {sender : Bool} {id : Int} {st : Stream} {ts : Nat}
    (h : chnTxNew s cnx sender id st ts = .ok s') : s'.streams = [] ↔ s.streams = [] := by
  unfold chnTxNew at h
  simp only at h
  split at h
  · cases h
  · cases h
    exact putStream_eq_nil

/-- A lookup succeeds if the resource is allowed and loaded, or can be opened, and leaves its stream
loaded. -/
theorem streamLookup_cases (rootLen : Nat) (s : Filed) (name : Bytes) (opened : Option (Option Bytes)) :
    ((46 ∈ name ∨ opened = none ∧ ∀ st ∈ s.streams, st.name ≠ name) ∧
      ∃ e, streamLookup rootLen s name opened = .error e) ∨
    (46 ∉ name ∧ (opened ≠ none ∨ s.streams ≠ []) ∧
      ∃ s' st, streamLookup rootLen s name opened = .ok (s', st) ∧ s'.streams ≠ []) := by
  unfold streamLookup
  by_cases hdot : 46 ∈ name
  · rw [if_pos hdot]
    exact .inl ⟨.inl hdot, _, rfl⟩
  · rw [if_neg hdot]
    cases hfind : s.streams.find? fun st => st.name == name with
    | some st =>
        have hne : s.streams ≠ [] := List.ne_nil_of_mem (List.mem_of_find?_eq_some hfind)
        exact .inr ⟨hdot, .inr hne, _, _, rfl, fun hnil => hne (putStream_eq_nil.1 hnil)⟩
    | none =>
        cases opened with
        | none =>
            refine .inl ⟨.inr ⟨rfl, fun st hst hname => ?_⟩, _, rfl⟩
            have hno := List.find?_eq_none.1 hfind st hst
            simp [hname] at hno
        | some file => exact .inr ⟨hdot, .inl (by simp), _, _, rfl, List.cons_ne_nil _ _⟩

theorem serveReadWrite_streams {s : Filed} {rootLen cnx : Nat} {reader : Bool} {seq : Int}
    {name : Bytes} {opened : Option (Option Bytes)} {clock : Option Nat} :
    (serveReadWrite rootLen s cnx reader seq name opened clock).1.streams = [] ↔
      s.streams = [] ∧ ¬ FiledEvent.Loads (.readWrite cnx reader seq name opened clock) := by
  unfold serveReadWrite FiledEvent.Loads
  by_cases hseq : seq = -1
  · simp [hseq]
  rw [if_neg hseq]
  rcases streamLookup_cases rootLen s name opened with ⟨hrefused, e, hr⟩ | ⟨hdot, hload, s', st, hr, hne⟩
  · rw [hr]
    refine ⟨fun hnil => ⟨hnil, ?_⟩, fun h => h.1⟩
    rintro ⟨-, hdot, hopened⟩
    rcases hrefused with hin | ⟨hnone, -⟩
    · exact hdot hin
    · exact hopened hnone
  · rw [hr]
    have hbad : ¬ (s.streams = [] ∧ ¬ (seq ≠ -1 ∧ 46 ∉ name ∧ opened ≠ none)) := by
      rintro ⟨hnil, hno⟩
      rcases hload with hopened | hloaded
      · exact hno ⟨hseq, hdot, hopened⟩
      · exact hloaded hnil
    refine ⟨fun hnil => absurd ?_ hne, fun h => absurd h hbad⟩
    cases clock with
    | none => exact hnil
    | some ts =>
        simp only at hnil
        split at hnil
        · exact hnil
        · next s'' hnew => exact (chnTxNew_streams hnew).1 hnil

/-- Every event is handled without any assertion that fails, and a stream that was loaded stays. -/
theorem Filed.Inv.step {s : Filed} (h : s.Inv) (rootLen : Nat) (e : FiledEvent) :
    ∃ s', filedStep rootLen s e = .ok s' ∧ s'.Inv ∧
      (s'.streams = [] ↔ s.streams = [] ∧ ¬ e.Loads) := by
  have hsame : ∀ s' : Filed, s'.streams.map Stream.addr = s.streams.map Stream.addr →
      (s'.streams = [] ↔ s.streams = [] ∧ ¬ False) := by
    intro s' heq
    rw [← List.map_eq_nil_iff (f := Stream.addr), heq, List.map_eq_nil_iff]
    simp
  cases e with
  | readWrite cnx reader seq name opened clock =>
      exact ⟨_, rfl, h.serve rootLen cnx reader seq name opened clock, serveReadWrite_streams⟩
  | finish addr status =>
      rcases h.finish addr status with ⟨s', hr, hinv, heq⟩
      exact ⟨s', hr, hinv, hsame s' heq⟩
  | close cnx =>
      rcases h.close cnx with ⟨s', hr, hinv, heq⟩
      exact ⟨s', hr, hinv, hsame s' heq⟩

/-- Each loaded stream has a reference in excess. -/
theorem Filed.Inv.balanced_iff {s : Filed} (h : s.Inv) : Balanced s ↔ s.streams = [] := by
  refine ⟨fun hb => ?_, fun hnil st hst => ?_⟩
  · by_contra hne
    rcases List.exists_mem_of_ne_nil _ hne with ⟨st, hst⟩
    have hleaked := h.held.leaked st hst
    have hcount := hb st hst
    omega
  · rw [hnil] at hst
    cases hst

theorem filedRun_balanced {s : Filed} (h : s.Inv) (rootLen : Nat) (es : List FiledEvent) :
    ∃ s', filedRun rootLen s es = .ok s' ∧
      (Balanced s' ↔ s.streams = [] ∧ ∀ e ∈ es, ¬ e.Loads) := by
  induction es generalizing s with
  | nil => exact ⟨s, rfl, by simp [h.balanced_iff]⟩
  | cons e es ih =>
      rcases h.step rootLen e with ⟨s₁, hr₁, hinv₁, hloads⟩
      rcases ih hinv₁ with ⟨s', hr, hiff⟩
      refine ⟨s', by rw [filedRun, hr₁]; exact hr, ?_⟩
      rw [hiff, hloads, List.forall_mem_cons, and_assoc]

/-- After any run of the file server, the count of each loaded stream is that of its transfers exactly
if no command of the run loaded a stream. -/
theorem stream_counts_iff (rootLen : Nat) (es : List FiledEvent) :
    ∃ s, filedRun rootLen Filed.new es = .ok s ∧ (Balanced s ↔ ∀ e ∈ es, ¬ e.Loads) := by
  rcases filedRun_balanced Filed.Inv.new rootLen es with ⟨s, hr, hiff⟩
  have hnew : Filed.new.streams = [] := rfl
  refine ⟨s, hr, hiff.trans ?_⟩
  simp [hnew]

/-- A file is read to its end: its stream stays, with one reference. -/
theorem not_stream_counts :
    ¬ ∀ (rootLen : Nat) (es : List FiledEvent) (s : Filed),
      filedRun rootLen Filed.new es = .ok s → Balanced s := by
  intro h
  rcases filedRun_balanced Filed.Inv.new 10 [.readWrite 0 true 1 (ascii "a") (some (some [])) (some 1),
    .finish 0 200] with ⟨s, hr, hiff⟩
  have hloads : FiledEvent.Loads (.readWrite 0 true 1 (ascii "a") (some (some [])) (some 1)) :=
    ⟨by decide, by decide, by simp⟩
  exact (hiff.1 (h 10 _ s hr)).2 _ List.mem_cons_self hloads

end Scambio
