import Scambio.Lib.Answer

/-!
# Seqnums — an answer reaches the query it answers

The number of a query goes out through `mdir_cmd_seq2str`, comes back negated in the answer, and is looked
for among the queries that wait.  `mdir_cmd_seq2str` keeps one digit less than the bytes of a pointer,
so that the number comes back as long as it has no more digits than that
(`answers_reach_queries`).
-/

namespace Scambio

open Library

/-! ## The way of a number -/

/-- The number with which the answer to query `seq` comes back, through any server and any client that
dispatch the query and the answer. -/
inductive Echo (ptrSize : Nat) (seq : Int) : Int → Prop
  | mk {server client : CmdSyntax} {kw next next' compl b : Bytes} {params : List Bytes}
      {h : Option Header} {cmd cmd' : Cmd} {status : Int} {w : AnswerWrite}
      (served : (mdirCmdRead server (queryText ptrSize (some seq) kw params h ++ next)).parse.result =
        .ok cmd)
      (answered : mdirCnxAnswer server cmd status compl = .ok (some w)) (sent : w.Sent b)
      (received : (mdirCmdRead client (b ++ next')).parse.result = .ok cmd') :
      Echo ptrSize seq cmd'.seq

theorem isDigit_not_isDelimiter {d : UInt8} (h : isDigit d = true) : isDelimiter d = false :=
  forall_byte (p := fun d => isDigit d = true → isDelimiter d = false) (by decide +kernel) d h

theorem isSeq_digits {ds : Bytes} (hne : ds ≠ []) (hds : ∀ d ∈ ds, isDigit d = true) :
    isSeq ds = true ∧ isSeq (45 :: ds) = true := by
  cases ds with
  | nil => exact absurd rfl hne
  | cons d ds =>
      have hd := hds d List.mem_cons_self
      simp [isSeq, hd]

theorem negateSeq_neg {n : Int} (hpos : 0 < n) (hmax : n < 2 ^ 63) : negateSeq (-n) = n := by
  rw [negateSeq, Int.neg_neg, Int.bmod_eq_of_le] <;> omega

section Prefix

variable {n k : Nat}

theorem take_decimal_digits (d : UInt8) (h : d ∈ (decimal n).take k) : isDigit d = true :=
  isDigit_of_mem_decimal (List.mem_of_mem_take h)

/-- The first digits of a number that is not zero do not start with zero. -/
theorem take_decimal_head (hn : 0 < n) (hk : 0 < k) :
    (decimal n).take k ≠ [] ∧ ((decimal n).take k).head? ≠ some 48 := by
  have hhead := head?_decimal_ne hn
  cases hds : decimal n with
  | nil => exact absurd hds (decimal_ne_nil n)
  | cons d ds =>
      rw [hds] at hhead
      obtain ⟨k, rfl⟩ : ∃ j, k = j + 1 := ⟨k - 1, by omega⟩
      exact ⟨by simp, by simpa using hhead⟩

theorem digitsVal_pos {ds : Bytes} (hne : ds ≠ []) (hds : ∀ d ∈ ds, isDigit d = true)
    (hhead : ds.head? ≠ some 48) : 0 < digitsVal ds := by
  induction ds using List.reverseRecOn with
  | nil => exact absurd rfl hne
  | append_singleton ds d ih =>
      have hval : digitsVal (ds ++ [d]) = 10 * digitsVal ds + (d.toNat - 48) := by
        simp [digitsVal]
      have hd := hds d (by simp)
      simp only [isDigit, Bool.and_eq_true, decide_eq_true_eq, UInt8.le_iff_toNat_le] at hd
      have hd48 : 48 ≤ d.toNat := hd.1
      rw [hval]
      by_cases hnil : ds = []
      · subst hnil
        have hne48 : d.toNat ≠ 48 := by
          intro h48
          apply hhead
          have hd' : d = 48 := UInt8.toNat_inj.1 h48
          rw [hd']
          rfl
        omega
      · have hpos := ih hnil (fun c hc => hds c (by simp [hc]))
          (by rwa [List.head?_append_of_ne_nil _ hnil] at hhead)
        omega

/-- The first digits of a number are less than the number, unless they are all of it. -/
theorem digitsVal_take_decimal_eq_iff (hk : 0 < k) :
    digitsVal ((decimal n).take k) = n ↔ n < 10 ^ k := by
  constructor
  · intro h
    have hlt := digitsVal_lt (take_decimal_digits (n := n) (k := k))
    rw [h] at hlt
    have hle : ((decimal n).take k).length ≤ k := List.length_take_le _ _
    exact lt_of_lt_of_le hlt (Nat.pow_le_pow_right (by decide) hle)
  · intro h
    rw [List.take_of_length_le (length_decimal_le hk h), digitsVal_decimal]

theorem digitsVal_take_decimal_lt : digitsVal ((decimal n).take k) < 10 ^ k := by
  have hlt := digitsVal_lt (take_decimal_digits (n := n) (k := k))
  have hle : ((decimal n).take k).length ≤ k := List.length_take_le _ _
  exact lt_of_lt_of_le hlt (Nat.pow_le_pow_right (by decide) hle)

end Prefix

/-- What the peers make of the number of a query. -/
theorem Echo.eq {ptrSize : Nat} {seq seq' : Int} (hptr : ptrSize = 4 ∨ ptrSize = 8) (hpos : 1 ≤ seq)
    (h : Echo ptrSize seq seq') :
    seq' = digitsVal ((decimal seq.toNat).take (ptrSize - 1)) := by
  have hk : 0 < ptrSize - 1 := by omega
  have hn : 0 < seq.toNat := by omega
  obtain ⟨hne, hhead⟩ := take_decimal_head hn hk
  have hdig : ∀ d ∈ (decimal seq.toNat).take (ptrSize - 1), isDigit d = true :=
    fun d hd => take_decimal_digits d hd
  have hlt : digitsVal ((decimal seq.toNat).take (ptrSize - 1)) < 2 ^ 63 := by
    refine lt_trans digitsVal_take_decimal_lt ?_
    rcases hptr with rfl | rfl <;> decide
  have hval := digitsVal_pos hne hdig hhead
  cases h with
  | @mk server client kw next next' compl b params h cmd cmd' status w served answered sent received =>
      -- the server reads the digits that were kept
      have htext : queryText ptrSize (some seq) kw params h ++ next =
          (decimal seq.toNat).take (ptrSize - 1) ++ 32 :: (kw ++ params.flatMap (fun param => 32 :: param) ++
            [10] ++ (h.map headerDump).getD [] ++ next) := by
        have hprint : printInt seq = decimal seq.toNat := by
          rw [printInt, if_neg (by omega)]
          congr 1
          omega
        simp [queryText, mdirCmdSeq2str, hprint]
      rw [htext] at served
      have hlen : ((decimal seq.toNat).take (ptrSize - 1)).length < MAX_CMD_LINE := by
        have hle : ((decimal seq.toNat).take (ptrSize - 1)).length ≤ ptrSize - 1 :=
          List.length_take_le _ _
        have hmax : MAX_CMD_LINE = 4352 := rfl
        omega
      have hserved := (seq_of_mdirCmdRead hne (fun c hc => isDigit_not_isDelimiter (hdig c hc)) hlen
        (isSeq_digits hne hdig).1 served).2
      rw [strtoll_digits hne hdig hhead hlt, if_neg (by omega)] at hserved
      -- the client reads it negated at the head of the answer
      generalize digitsVal ((decimal seq.toNat).take (ptrSize - 1)) = v at hlt hval hserved ⊢
      have hcmd : 0 < cmd.seq ∧ cmd.seq < 2 ^ 63 := by omega
      rcases mdirCnxAnswer_reply server status compl hcmd.1 hcmd.2 with ⟨w', rest, hw', hwlen, hreply⟩
      rw [answered] at hw'
      cases hw'
      have hshort := length_answerHead hcmd.1 hcmd.2
      have hsize : REPLY_SIZE = 512 := rfl
      rcases sent.head hwlen (by omega) hreply with ⟨b', rfl⟩
      have hprint : printInt cmd.seq = decimal v := by
        rw [hserved, printInt, if_neg (by omega), Int.natAbs_natCast]
      have hanswer : answerHead cmd.seq ++ b' ++ next' = (45 :: decimal v) ++ 32 :: (b' ++ next') := by
        simp [answerHead, hprint]
      rw [hanswer] at received
      have hdigits : ∀ d ∈ decimal v, isDigit d = true := fun d hd => isDigit_of_mem_decimal hd
      have hword : ∀ c ∈ 45 :: decimal v, isDelimiter c = false := by
        intro c hc
        rcases List.mem_cons.1 hc with rfl | hc
        · decide
        · exact isDigit_not_isDelimiter (hdigits c hc)
      have hlen' : (45 :: decimal v).length < MAX_CMD_LINE := by
        rw [answerHead, hprint, List.length_append, List.length_singleton] at hshort
        have hmax : MAX_CMD_LINE = 4352 := rfl
        omega
      have hreceived := (seq_of_mdirCmdRead (by simp) hword hlen'
        (isSeq_digits (decimal_ne_nil v) hdigits).2 received).2
      rw [strtoll_neg_digits (decimal_ne_nil v) hdigits (head?_decimal_ne hval)
        (by rw [digitsVal_decimal]; omega), digitsVal_decimal] at hreceived
      rw [hreceived, if_pos (by omega), negateSeq_neg (by omega) (by omega)]

/-- The number of a query comes back if and only if it was short enough to go out. -/
theorem Echo.eq_iff {ptrSize : Nat} {seq seq' : Int} (hptr : ptrSize = 4 ∨ ptrSize = 8) (hpos : 1 ≤ seq)
    (h : Echo ptrSize seq seq') : seq' = seq ↔ seq < 10 ^ (ptrSize - 1) := by
  have hval := h.eq hptr hpos
  have hiff := digitsVal_take_decimal_eq_iff (n := seq.toNat) (k := ptrSize - 1) (by omega)
  have hcast : seq < 10 ^ (ptrSize - 1) ↔ seq.toNat < 10 ^ (ptrSize - 1) := by
    rcases hptr with rfl | rfl <;> omega
  rw [hcast, ← hiff, hval]
  omega

/-! ## The queries that wait -/

section Session

variable {α : Type}

/-- The query is found, and those in front of it stay, when none of them is too old. -/
theorem retrieveLoop_append {now seq : Int} {before : List (SentQuery α)} {q : SentQuery α}
    (hq : q.seq = seq) (hbefore : ∀ sq ∈ before, sq.seq ≠ seq)
    (hfresh : ∀ sq ∈ before, now ≤ sq.creation + SQ_TIMEOUT) (after : List (SentQuery α)) :
    retrieveLoop now seq (before ++ q :: after) = (before ++ after, some q) := by
  induction before with
  | nil => simp [retrieveLoop, hq]
  | cons sq before ih =>
      have hne : sq.seq ≠ seq := hbefore sq List.mem_cons_self
      have hyoung : ¬ sq.creation + SQ_TIMEOUT < now := by
        have := hfresh sq List.mem_cons_self
        omega
      have hnext := ih (fun s hs => hbefore s (List.mem_cons_of_mem _ hs))
        (fun s hs => hfresh s (List.mem_cons_of_mem _ hs))
      rw [List.cons_append, retrieveLoop, if_neg hne, hnext]
      simp [hyoung]

/-- A connection and the queries that were sent on it and wait for their answer.  Answers come in any
order, one for each query, while no query is older than the timeout.  A write that fails stands also for
a query that asks for no answer: both use a number and leave nothing in the list. -/
inductive Session (ptrSize : Nat) : Cnx α → List (SentQuery α) → Prop
  | start (usable : Bool) : Session ptrSize { usable := usable, nextSeq := 1, sentQueries := [] } []
  | link {cnx : Cnx α} {waiting : List (SentQuery α)} (usable : Bool) :
      Session ptrSize cnx waiting → Session ptrSize { cnx with usable := usable } waiting
  | query {cnx : Cnx α} {waiting : List (SentQuery α)} (owner : α) (now : Int) (written : Option Err) :
      Session ptrSize cnx waiting →
      Session ptrSize (cnxQuery cnx owner now written).1
        (if cnx.usable = true ∧ written = none then
          { seq := cnx.nextSeq, creation := now, owner := owner } :: waiting
        else waiting)
  | answer {cnx : Cnx α} {before after : List (SentQuery α)} {q : SentQuery α} {now seq' : Int} :
      Session ptrSize cnx (before ++ q :: after) →
      (∀ sq ∈ cnx.sentQueries, now ≤ sq.creation + SQ_TIMEOUT) → Echo ptrSize q.seq seq' →
      Session ptrSize (cnxQueryRetrieve cnx now seq').1 (before ++ after)

/-- The list of the connection is that of the queries that wait, each with a number of its own. -/
structure Numbered (cnx : Cnx α) (waiting : List (SentQuery α)) : Prop where
  sent : cnx.sentQueries = waiting
  first : 1 ≤ cnx.nextSeq
  bounds : ∀ q ∈ waiting, 1 ≤ q.seq ∧ q.seq < cnx.nextSeq
  distinct : waiting.Pairwise fun q q' => q.seq ≠ q'.seq

/-- The answer to a query that waits takes it out of the list, and only it. -/
theorem Numbered.retrieve {cnx : Cnx α} {before after : List (SentQuery α)} {q : SentQuery α}
    (h : Numbered cnx (before ++ q :: after)) {now : Int}
    (hfresh : ∀ sq ∈ cnx.sentQueries, now ≤ sq.creation + SQ_TIMEOUT) :
    cnxQueryRetrieve cnx now q.seq = ({ cnx with sentQueries := before ++ after }, .ok q) := by
  have hbefore : ∀ sq ∈ before, sq.seq ≠ q.seq := by
    intro sq hsq
    exact (List.pairwise_append.1 h.distinct).2.2 sq hsq q List.mem_cons_self
  have hloop := retrieveLoop_append rfl hbefore
    (fun sq hsq => hfresh sq (by rw [h.sent]; exact List.mem_append_left _ hsq)) after
  simp only [cnxQueryRetrieve, h.sent, hloop]

theorem Session.numbered {ptrSize : Nat} (hptr : ptrSize = 4 ∨ ptrSize = 8) {cnx : Cnx α}
    {waiting : List (SentQuery α)} (h : Session ptrSize cnx waiting)
    (hmax : cnx.nextSeq ≤ 10 ^ (ptrSize - 1)) : Numbered cnx waiting := by
  induction h with
  | start usable =>
      exact ⟨rfl, le_rfl, by simp, .nil⟩
  | link usable _ ih =>
      have hn := ih hmax
      exact ⟨hn.sent, hn.first, hn.bounds, hn.distinct⟩
  | @query cnx waiting owner now written _ ih =>
      by_cases husable : cnx.usable = true
      · cases written with
        | some e =>
            simp only [cnxQuery, husable, Bool.not_true, Bool.false_eq_true, if_false, reduceCtorEq,
              and_false] at hmax ⊢
            have hn := ih (by omega)
            have hfirst := hn.first
            refine ⟨hn.sent, by simp only; omega, fun q hq => ?_, hn.distinct⟩
            have := hn.bounds q hq
            simp only
            omega
        | none =>
            simp only [cnxQuery, husable, Bool.not_true, Bool.false_eq_true, if_false, and_self,
              if_true] at hmax ⊢
            have hn := ih (by omega)
            have hfirst := hn.first
            refine ⟨by rw [hn.sent], by simp only; omega, fun q hq => ?_, ?_⟩
            · rcases List.mem_cons.1 hq with rfl | hq
              · simp only
                omega
              · have := hn.bounds q hq
                simp only
                omega
            · refine List.pairwise_cons.2 ⟨fun q hq => ?_, hn.distinct⟩
              have := hn.bounds q hq
              simp only
              omega
      · have husable' : cnx.usable = false := by simpa using husable
        simp only [cnxQuery, husable', Bool.not_false, if_true, Bool.false_eq_true, false_and,
          if_false] at hmax ⊢
        exact ih hmax
  | @answer cnx before after q now seq' _ hfresh hecho ih =>
      have hkeep : (cnxQueryRetrieve cnx now seq').1.nextSeq = cnx.nextSeq := by
        unfold cnxQueryRetrieve
        split <;> rfl
      rw [hkeep] at hmax
      have hn := ih hmax
      -- the number came back whole: the answer is for this very query
      have hq := hn.bounds q (by simp)
      have hseq : seq' = q.seq := (hecho.eq_iff hptr hq.1).2 (by omega)
      rw [hseq, hn.retrieve hfresh]
      have hsub : before ++ after |>.Sublist (before ++ q :: after) :=
        List.Sublist.append (List.Sublist.refl _) (List.sublist_cons_self _ _)
      exact ⟨rfl, hn.first, fun s hs => hn.bounds s (hsub.subset hs), hn.distinct.sublist hsub⟩

/-- A number comes back to the client as it is exactly when `mdir_cmd_seq2str` has room for it; as long
as all have been so, each answer gets the query it is for, in any order and after any number of
queries. -/
theorem answers_reach_queries {ptrSize : Nat} (hptr : ptrSize = 4 ∨ ptrSize = 8) :
    (∀ seq seq' : Int, 1 ≤ seq → seq < 2 ^ 63 → Echo ptrSize seq seq' →
      (seq' = seq ↔ seq < 10 ^ (ptrSize - 1))) ∧
    ∀ (cnx : Cnx α) (waiting : List (SentQuery α)), Session ptrSize cnx waiting →
      cnx.nextSeq ≤ 10 ^ (ptrSize - 1) → ∀ q ∈ waiting, ∀ now seq' : Int,
        (∀ sq ∈ cnx.sentQueries, now ≤ sq.creation + SQ_TIMEOUT) → Echo ptrSize q.seq seq' →
          seq' = q.seq ∧ (cnxQueryRetrieve cnx now seq').2 = .ok q := by
  refine ⟨fun seq seq' hpos _ hecho => hecho.eq_iff hptr hpos, ?_⟩
  intro cnx waiting hsession hmax q hq now seq' hfresh hecho
  have hn := hsession.numbered hptr hmax
  have hbounds := hn.bounds q hq
  have hseq : seq' = q.seq := (hecho.eq_iff hptr hbounds.1).2 (by omega)
  refine ⟨hseq, ?_⟩
  obtain ⟨before, after, rfl⟩ := List.append_of_mem hq
  rw [hseq, hn.retrieve hfresh]

end Session

/-- mdsyncd answers to a subscription that mdsyncc has sent with the number `n`, of which `kept` is read. -/
theorem echo_sub {n kept : Int} (hpos : 0 < kept) (hmax : kept < 2 ^ 63)
    (hserved : (mdirCmdRead mdsyncdInitSyntax
      (queryText 8 (some n) kwSub [ascii "inbox", ascii "0"] none)).parse.result =
        .ok { cmdDef := stringService kwSub 2, seq := kept
              args := [.string (ascii "inbox"), .string (ascii "0")] })
    (hshort : (answerHead kept ++ answerBody kwSub 200 (ascii "Ok")).length < REPLY_SIZE)
    (hreceived : (mdirCmdRead connecterBegin
      (answerHead kept ++ answerBody kwSub 200 (ascii "Ok"))).parse.result =
        .ok { cmdDef := answRegister kwSub, seq := kept
              args := [.integer 200, .string (ascii "Ok")] }) : Echo 8 n kept := by
  rcases @mdirCnxAnswer_short mdsyncdInitSyntax
    { cmdDef := stringService kwSub 2, seq := kept, args := [.string (ascii "inbox"), .string (ascii "0")] }
    200 (ascii "Ok") hpos hmax hshort with ⟨w, hw, hlen, htake⟩
  rw [← List.append_nil (queryText _ _ _ _ _)] at hserved
  have hsent := sent_of_take hlen htake
  rw [← List.append_nil (answerHead _ ++ _)] at hreceived
  exact Echo.mk hserved hw hsent hreceived

/-- Two queries on a 64 bits client; the answer to the first one comes after the second one was sent. -/
theorem answers_reach_queries_sample :
    let cnx : Cnx Nat :=
      { usable := true, nextSeq := 3
        sentQueries := [{ seq := 2, creation := 4, owner := 20 }, { seq := 1, creation := 0, owner := 10 }] }
    (cnxQueryRetrieve cnx 5 1).2 = .ok { seq := 1, creation := 0, owner := 10 } := by
  intro cnx
  have hstart : Session 8 ({ usable := true, nextSeq := 1, sentQueries := [] } : Cnx Nat) [] := .start true
  have hone := Session.query 10 0 none hstart
  have htwo := Session.query 20 4 none hone
  have hecho : Echo 8 1 1 :=
    echo_sub (by decide) (by decide) (by decide) (by decide) (by decide)
  have h := (answers_reach_queries (.inr rfl)).2 cnx _ htwo (by decide)
    { seq := 1, creation := 0, owner := 10 } (by simp [cnxQuery]) 5 1 (by decide) hecho
  exact h.2

/-- The ten millionth query of a 64 bits client is answered under the number 1000000. -/
theorem echo_ten_millions : ∃ seq', Echo 8 10000000 seq' ∧ seq' ≠ 10000000 :=
  ⟨1000000, echo_sub (by decide) (by decide) (by decide) (by decide)
    (by decide), by decide⟩

end Scambio
